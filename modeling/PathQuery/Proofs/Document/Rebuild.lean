import Mathlib.Logic.Function.Basic
import PathQuery.Edit
import PathQuery.Proofs.Document.DistinctKeys
import PathQuery.Proofs.Document.LocationOrder

/-! # Changing a document in one pass

A `Change` says for every location of a document what becomes of the value there,
once everything below it has been changed: another value, or nothing.  `rebuild`
carries out such a change in one pass over the document, with all locations those
of the original.

Edits work the other way: they change one location after the other, in a document
that has changed already.  Both come to the same (`updateAt?_rebuild`,
`delete?_rebuild`) as long as every location is changed before those that stand
before it in the order of locations.  Whatever has changed then stands behind the
location that is next, so nothing on the way to it has moved: the container around
it still has a hole in the same place (`Hole`, `exists_hole`).
-/

namespace PathQuery
namespace Json

/-- What becomes of the value at each location; `none` leaves it out. -/
abbrev Change := Location → Json → Option Json

namespace Change

/-- The change below an accessor. -/
def below (change : Change) (a : Accessor) : Change :=
  fun l => change (a :: l)

/-- The change below a location. -/
def under (change : Change) (l : Location) : Change :=
  fun l' => change (l ++ l')

@[simp] theorem below_apply (change : Change) (a : Accessor) (l : Location) :
    change.below a l = change (a :: l) := rfl

@[simp] theorem under_nil (change : Change) : change.under [] = change := rfl

theorem under_self (change : Change) (l : Location) : change.under l [] = change l := by
  rw [under, List.append_nil]

theorem under_cons (change : Change) (a : Accessor) (l : Location) :
    change.under (a :: l) = (change.below a).under l := rfl

theorem below_update_self (change : Change) (a : Accessor) (l : Location)
    (f : Json → Option Json) :
    below (Function.update change (a :: l) f) a = Function.update (change.below a) l f := by
  funext l'
  by_cases h : l' = l
  · subst h
    simp
  · simp [h]

theorem below_update_of_ne (change : Change) {a b : Accessor} (h : b ≠ a) (l : Location)
    (f : Json → Option Json) :
    below (Function.update change (a :: l) f) b = change.below b := by
  funext l'
  simp [h]

/-- Nothing changes at a location or before it. -/
def Behind (change : Change) (l : Location) : Prop :=
  ∀ l', ¬ Location.lt l l' → change l' = some

theorem Behind.nil {change : Change} {l : Location} (h : change.Behind l) : change [] = some :=
  h [] (Location.not_lt_nil l)

theorem Behind.self {change : Change} {l : Location} (h : change.Behind l) : change l = some :=
  h l (Location.not_lt_self l)

theorem Behind.below {change : Change} {a : Accessor} {l : Location}
    (h : change.Behind (a :: l)) : (change.below a).Behind l :=
  fun l' hl' => h (a :: l') (by simpa using hl')

/-- What stands beside the way to a location and before it is left alone. -/
theorem Behind.sibling {change : Change} {a b : Accessor} {l : Location}
    (h : change.Behind (a :: l)) (hb : b.le a = true) (hne : b ≠ a) : change [b] = some := by
  refine h [b] fun hlt => hne ?_
  exact Accessor.le_antisymm hb ((Location.cons_lt_cons_of_ne (Ne.symm hne)).mp hlt)

end Change

mutual

/-- The document with a change carried out everywhere, from the inside out. -/
def rebuild (change : Change) : Json → Option Json
  | .array items => change [] (.array (rebuildItems change 0 items))
  | .object members => change [] (.object (rebuildMembers change members))
  | atom => change [] atom

/-- The elements of an array from index `i` on, with a change carried out. -/
def rebuildItems (change : Change) (i : Nat) : List Json → List Json
  | [] => []
  | v :: rest => (rebuild (change.below (.index i)) v).toList ++ rebuildItems change (i + 1) rest

/-- The members of an object, with a change carried out. -/
def rebuildMembers (change : Change) : List (String × Json) → List (String × Json)
  | [] => []
  | (key, v) :: rest =>
    ((rebuild (change.below (.key key)) v).map (key, ·)).toList ++ rebuildMembers change rest

end

theorem rebuildItems_append (change : Change) (i : Nat) (xs ys : List Json) :
    rebuildItems change i (xs ++ ys) =
      rebuildItems change i xs ++ rebuildItems change (i + xs.length) ys := by
  induction xs generalizing i with
  | nil => rfl
  | cons v xs ih =>
    simp only [List.cons_append, rebuildItems, ih, List.append_assoc, List.length_cons]
    rw [Nat.add_right_comm, Nat.add_assoc i]

theorem rebuildMembers_append (change : Change) (xs ys : List (String × Json)) :
    rebuildMembers change (xs ++ ys) = rebuildMembers change xs ++ rebuildMembers change ys := by
  induction xs with
  | nil => rfl
  | cons p xs ih => simp only [List.cons_append, rebuildMembers, ih, List.append_assoc]

theorem rebuildItems_congr {change change' : Change} {i : Nat} {items : List Json}
    (h : ∀ j, i ≤ j → j < i + items.length →
      change.below (.index j) = change'.below (.index j)) :
    rebuildItems change i items = rebuildItems change' i items := by
  induction items generalizing i with
  | nil => rfl
  | cons v rest ih =>
    simp only [List.length_cons] at h
    rw [rebuildItems, rebuildItems, h i (Nat.le_refl i) (by omega),
      ih fun j hij hj => h j (by omega) (by omega)]

theorem rebuildMembers_congr {change change' : Change} {members : List (String × Json)}
    (h : ∀ key ∈ members.map Prod.fst,
      change.below (.key key) = change'.below (.key key)) :
    rebuildMembers change members = rebuildMembers change' members := by
  induction members with
  | nil => rfl
  | cons p rest ih =>
    rw [rebuildMembers, rebuildMembers, h p.1 (List.mem_cons_self ..),
      ih fun key hk => h key (List.mem_cons_of_mem _ hk)]

/-- A value that its own location leaves alone is not left out. -/
theorem rebuild_isSome {change : Change} (h : change [] = some) (v : Json) :
    (rebuild change v).isSome := by
  cases v <;> simp [rebuild, h]

theorem length_rebuildItems {change : Change} {i : Nat} {items : List Json}
    (h : ∀ j, i ≤ j → j < i + items.length → change [.index j] = some) :
    (rebuildItems change i items).length = items.length := by
  induction items generalizing i with
  | nil => rfl
  | cons v rest ih =>
    simp only [List.length_cons] at h
    have hv : change.below (.index i) [] = some := h i (Nat.le_refl i) (by omega)
    obtain ⟨w, hw⟩ := Option.isSome_iff_exists.mp (rebuild_isSome hv v)
    rw [rebuildItems, hw, List.length_append, ih fun j hij hj => h j (by omega) (by omega),
      List.length_cons, Nat.add_comm]
    rfl

theorem mem_keys_rebuildMembers {change : Change} {members : List (String × Json)} {key : String}
    (h : key ∈ (rebuildMembers change members).map Prod.fst) : key ∈ members.map Prod.fst := by
  induction members with
  | nil => exact h
  | cons p rest ih =>
    rw [rebuildMembers, List.map_append, List.mem_append] at h
    rcases h with h | h
    · cases hr : rebuild (change.below (.key p.1)) p.2 with
      | none => simp [hr] at h
      | some w =>
        have hk : key = p.1 := by simpa [hr] using h
        exact hk ▸ List.mem_cons_self ..
    · exact List.mem_cons_of_mem _ (ih h)

/-! ## Containers with a hole -/

/-- `plug` is a container that has one place open, behind the accessor `a`. -/
structure Hole (a : Accessor) (plug : Option Json → Json) : Prop where
  get : ∀ c, (plug (some c)).get? a = some c
  put : ∀ c w, (plug (some c)).put? a w = some (plug (some w))
  remove : ∀ c, (plug (some c)).remove? a = some (plug none)

theorem hole_array (before after : List Json) :
    Hole (.index before.length) fun c => .array (before ++ c.toList ++ after) where
  get c := by simp [get?, getIndex?]
  put c w := by simp [put?, setIndex?]
  remove c := by
    have hlt : before.length < (before ++ [c] ++ after).length := by simp
    simp only [remove?, removeIndex?, Option.toList_some, hlt, if_true]
    rw [List.append_assoc, List.eraseIdx_append_of_length_le (Nat.le_refl _), Nat.sub_self]
    simp

theorem lookup_append {key : String} {before : List (String × Json)}
    (h : key ∉ before.map Prod.fst) (after : List (String × Json)) :
    lookup key (before ++ after) = lookup key after := by
  induction before with
  | nil => rfl
  | cons p rest ih =>
    obtain ⟨hp, hrest⟩ := not_or.mp (List.mem_cons.not.mp h)
    rw [List.cons_append, lookup, if_neg (Ne.symm hp), ih hrest]

theorem insert_append {key : String} (value : Json) {before : List (String × Json)}
    (h : key ∉ before.map Prod.fst) (after : List (String × Json)) :
    insert key value (before ++ after) = before ++ insert key value after := by
  induction before with
  | nil => rfl
  | cons p rest ih =>
    obtain ⟨hp, hrest⟩ := not_or.mp (List.mem_cons.not.mp h)
    rw [List.cons_append, insert, if_neg (Ne.symm hp), ih hrest, List.cons_append]

theorem erase_append {key : String} {before : List (String × Json)}
    (h : key ∉ before.map Prod.fst) (after : List (String × Json)) :
    erase key (before ++ after) = before ++ erase key after := by
  induction before with
  | nil => rfl
  | cons p rest ih =>
    obtain ⟨hp, hrest⟩ := not_or.mp (List.mem_cons.not.mp h)
    rw [List.cons_append, erase, if_neg (Ne.symm hp), ih hrest, List.cons_append]

theorem hole_object {key : String} {before : List (String × Json)}
    (h : key ∉ before.map Prod.fst) (after : List (String × Json)) :
    Hole (.key key) fun c => .object (before ++ (c.map (key, ·)).toList ++ after) where
  get c := by
    simp only [get?, getKey?, List.append_assoc, lookup_append h]
    simp [lookup]
  put c w := by
    simp only [put?, setKey?, List.append_assoc, insert_append _ h]
    simp [insert]
  remove c := by
    simp only [remove?, removeKey?, List.append_assoc, lookup_append h, erase_append h]
    simp [lookup, erase]

/-- The way into a document goes through a hole that changes beside it and behind
it leave open: what they make of the document is what they make of the child, put
into the hole. -/
theorem exists_hole {doc child : Json} {a : Accessor} (hd : doc.DistinctKeys)
    (hc : doc.get? a = some child) {change : Change}
    (hkept : ∀ b, b.le a = true → b ≠ a → change [b] = some) :
    ∃ plug, Hole a plug ∧ ∀ change' : Change, change' [] = some →
      (∀ b, b ≠ a → change'.below b = change.below b) →
      rebuild change' doc = some (plug (rebuild (change'.below a) child)) := by
  cases a with
  | index i =>
    cases doc with
    | array items =>
      obtain ⟨hi, hget⟩ := List.getElem?_eq_some_iff.mp hc
      -- the elements before the child are all kept, so its index does not change
      have hsplit : items = items.take i ++ child :: items.drop (i + 1) := by
        rw [← hget, List.cons_getElem_drop_succ, List.take_append_drop]
      have htake : (items.take i).length = i := List.length_take_of_le (Nat.le_of_lt hi)
      have hlen : (rebuildItems change 0 (items.take i)).length = i := by
        rw [length_rebuildItems, htake]
        intro j _ hj
        rw [htake, Nat.zero_add] at hj
        exact hkept _ (decide_eq_true (Nat.le_of_lt hj)) fun he => by
          rw [Accessor.index.injEq] at he
          omega
      refine ⟨fun c => .array (rebuildItems change 0 (items.take i) ++ c.toList ++
        rebuildItems change (i + 1) (items.drop (i + 1))), ?_, fun change' h0 hoff => ?_⟩
      · have hhole := hole_array (rebuildItems change 0 (items.take i))
          (rebuildItems change (i + 1) (items.drop (i + 1)))
        rwa [hlen] at hhole
      · have hbefore : rebuildItems change' 0 (items.take i) =
            rebuildItems change 0 (items.take i) := by
          refine rebuildItems_congr fun j _ hj => hoff _ fun he => ?_
          rw [Accessor.index.injEq] at he
          omega
        have hafter : rebuildItems change' (i + 1) (items.drop (i + 1)) =
            rebuildItems change (i + 1) (items.drop (i + 1)) := by
          refine rebuildItems_congr fun j hj _ => hoff _ fun he => ?_
          rw [Accessor.index.injEq] at he
          omega
        rw [rebuild, h0]
        conv_lhs => rw [hsplit]
        rw [rebuildItems_append, rebuildItems, htake, Nat.zero_add, hbefore, hafter]
        simp only [List.append_assoc]
    | _ => simp [get?, getIndex?] at hc
  | key name =>
    cases doc with
    | object members =>
      -- keys are distinct, so the member is found in the rebuilt object by its key
      obtain ⟨before, after, rfl⟩ := List.append_of_mem (mem_of_lookup hc)
      have hnodup := (distinctKeys_object.mp hd).1
      rw [List.map_append, List.map_cons, List.nodup_append] at hnodup
      obtain ⟨_, hafter, hdisj⟩ := hnodup
      have hbefore : name ∉ before.map Prod.fst :=
        fun hm => hdisj name hm name (List.mem_cons_self ..) rfl
      refine ⟨fun c => .object (rebuildMembers change before ++ (c.map (name, ·)).toList ++
        rebuildMembers change after),
        hole_object (fun hm => hbefore (mem_keys_rebuildMembers hm)) _,
        fun change' h0 hoff => ?_⟩
      have hoff' : ∀ key, key ≠ name → change'.below (.key key) = change.below (.key key) :=
        fun key hne => hoff _ fun he => hne (Accessor.key.inj he)
      have hb : rebuildMembers change' before = rebuildMembers change before :=
        rebuildMembers_congr fun key hk => hoff' key fun he => hbefore (he ▸ hk)
      have ha : rebuildMembers change' after = rebuildMembers change after :=
        rebuildMembers_congr fun key hk => hoff' key fun he =>
          (List.nodup_cons.mp hafter).1 (he ▸ hk)
      rw [rebuild, h0, rebuildMembers_append, rebuildMembers, hb, ha]
      simp only [List.append_assoc]
    | _ => simp [get?, getKey?] at hc

/-! ## One location at a time -/

theorem updateAt?_cons (doc : Json) (a : Accessor) (l : Location) (f : Json → Option Json) :
    doc.updateAt? (a :: l) f =
      (doc.get? a).bind fun child => (child.updateAt? l f).bind (doc.put? a) := rfl

theorem delete?_singleton (doc : Json) (a : Accessor) : doc.delete? [a] = doc.remove? a := rfl

theorem delete?_cons_cons (doc : Json) (a b : Accessor) (l : Location) :
    doc.delete? (a :: b :: l) =
      (doc.get? a).bind fun child => (child.delete? (b :: l)).bind (doc.put? a) := by
  simp only [delete?, List.getLast?_cons_cons, List.dropLast_cons_cons]
  cases (b :: l).getLast? with
  | none =>
    simp only [Option.bind_none]
    cases doc.get? a <;> rfl
  | some last => rfl

/-- At a location that exists, putting a value and changing the value are the same. -/
theorem write?_eq_updateAt? {doc : Json} {l : Location} (h : (doc.valueAt? l).isSome)
    (value : Json) : doc.write? l value = doc.updateAt? l fun _ => some value := by
  induction l generalizing doc with
  | nil => rfl
  | cons a l ih =>
    obtain ⟨v, hv⟩ := Option.isSome_iff_exists.mp h
    obtain ⟨child, hc, hv⟩ := Option.bind_eq_some_iff.mp hv
    cases l with
    | nil =>
      rw [updateAt?_cons, hc]
      rfl
    | cons b l =>
      have hchild : child.write? (b :: l) value = child.updateAt? (b :: l) fun _ => some value :=
        ih (by rw [hv]; rfl)
      simp only [write?, List.getLast?_cons_cons, List.dropLast_cons_cons] at hchild ⊢
      cases hlast : (b :: l).getLast? with
      | none => simp at hlast
      | some last =>
        simp only [hlast] at hchild
        simp only [updateAt?_cons (a := a), hc, Option.bind_some, hchild]

/-- The value at a location after a change behind it. -/
theorem valueAt?_rebuild {doc d v : Json} {l : Location} (hd : doc.DistinctKeys)
    (hv : doc.valueAt? l = some v) {change : Change} (hbehind : change.Behind l)
    (hdoc : rebuild change doc = some d) : d.valueAt? l = rebuild (change.under l) v := by
  induction l generalizing doc d change with
  | nil =>
    rw [← Option.some.inj hv]
    exact hdoc.symm
  | cons a l ih =>
    obtain ⟨child, hc, hv⟩ := Option.bind_eq_some_iff.mp hv
    obtain ⟨plug, hplug, hrebuild⟩ := exists_hole hd hc fun b => hbehind.sibling (l := l)
    obtain ⟨c, hchild⟩ := Option.isSome_iff_exists.mp (rebuild_isSome hbehind.below.nil child)
    rw [hrebuild change hbehind.nil fun _ _ => rfl, hchild, Option.some.injEq] at hdoc
    rw [← hdoc, valueAt?, hplug.get, Option.bind_some, Change.under_cons,
      ih (hd.of_get? hc) hv hbehind.below hchild]

/-- A change of the value at a location itself comes on top of what changes below. -/
theorem rebuild_update_nil {change : Change} (h : change [] = some) (f : Json → Option Json)
    (v : Json) : rebuild (Function.update change [] f) v = (rebuild change v).bind f := by
  have hbelow : ∀ a, Change.below (Function.update change [] f) a = change.below a := by
    intro a
    funext l
    simp
  cases v with
  | array items =>
    have hitems : rebuildItems (Function.update change [] f) 0 items =
        rebuildItems change 0 items := rebuildItems_congr fun j _ _ => hbelow _
    simp [rebuild, h, hitems]
  | object members =>
    have hmembers : rebuildMembers (Function.update change [] f) members =
        rebuildMembers change members := rebuildMembers_congr fun key _ => hbelow _
    simp [rebuild, h, hmembers]
  | _ => simp [rebuild, h]

/-- **Changing one more location.**  The value at a location is changed after
everything behind it, in the document that has come of that; this is the same as
changing the original with that location added to the change. -/
theorem updateAt?_rebuild {doc d v w w' : Json} {l : Location} (hd : doc.DistinctKeys)
    (hv : doc.valueAt? l = some v) {change : Change} (hbehind : change.Behind l)
    (hdoc : rebuild change doc = some d) (hw : rebuild (change.under l) v = some w)
    {f : Json → Option Json} (hf : f w = some w') :
    ∃ d', d.updateAt? l f = some d' ∧ rebuild (Function.update change l f) doc = some d' := by
  induction l generalizing doc d change with
  | nil =>
    obtain rfl := Option.some.inj hv
    rw [Change.under_nil, hdoc, Option.some.injEq] at hw
    refine ⟨w', hw ▸ hf, ?_⟩
    rw [rebuild_update_nil hbehind.nil, hdoc, Option.bind_some, hw, hf]
  | cons a l ih =>
    obtain ⟨child, hc, hv⟩ := Option.bind_eq_some_iff.mp hv
    obtain ⟨plug, hplug, hrebuild⟩ := exists_hole hd hc fun b => hbehind.sibling (l := l)
    obtain ⟨c, hchild⟩ := Option.isSome_iff_exists.mp (rebuild_isSome hbehind.below.nil child)
    rw [hrebuild change hbehind.nil fun _ _ => rfl, hchild, Option.some.injEq] at hdoc
    obtain ⟨c', hupdate, hc'⟩ := ih (hd.of_get? hc) hv hbehind.below hchild hw
    refine ⟨plug (some c'), ?_, ?_⟩
    · rw [← hdoc, updateAt?_cons, hplug.get, Option.bind_some, hupdate, Option.bind_some,
        hplug.put]
    · rw [hrebuild _ (by simpa using hbehind.nil)
          fun b hb => Change.below_update_of_ne change hb l f,
        Change.below_update_self, hc']

/-- **Deleting one more location.** -/
theorem delete?_rebuild {doc d v : Json} {l : Location} (hd : doc.DistinctKeys)
    (hv : doc.valueAt? l = some v) {change : Change} (hbehind : change.Behind l)
    (hdoc : rebuild change doc = some d) :
    d.delete? l = rebuild (Function.update change l fun _ => none) doc := by
  induction l generalizing doc d change with
  | nil =>
    rw [rebuild_update_nil hbehind.nil, hdoc]
    rfl
  | cons a l ih =>
    obtain ⟨child, hc, hv⟩ := Option.bind_eq_some_iff.mp hv
    obtain ⟨plug, hplug, hrebuild⟩ := exists_hole hd hc fun b => hbehind.sibling (l := l)
    obtain ⟨c, hchild⟩ := Option.isSome_iff_exists.mp (rebuild_isSome hbehind.below.nil child)
    rw [hrebuild change hbehind.nil fun _ _ => rfl, hchild, Option.some.injEq] at hdoc
    rw [← hdoc, hrebuild _ (by simpa using hbehind.nil)
        fun b hb => Change.below_update_of_ne change hb l _,
      Change.below_update_self]
    cases l with
    | nil =>
      rw [delete?_singleton, hplug.remove, rebuild_update_nil hbehind.below.nil, hchild]
      rfl
    | cons b l =>
      have hkept : Function.update (change.below a) (b :: l) (fun _ => none) [] = some := by
        simpa using hbehind.below.nil
      obtain ⟨c', hc'⟩ := Option.isSome_iff_exists.mp (rebuild_isSome hkept child)
      rw [delete?_cons_cons, hplug.get, Option.bind_some,
        ih (hd.of_get? hc) hv hbehind.below hchild, hc', Option.bind_some, hplug.put]

mutual

/-- Changing nothing gives the document back. -/
theorem rebuild_some : ∀ doc : Json, rebuild (fun _ => some) doc = some doc
  | .array items => by rw [rebuild, rebuildItems_some]
  | .object members => by rw [rebuild, rebuildMembers_some]
  | .null | .bool _ | .number _ | .string _ => rfl

theorem rebuildItems_some (i : Nat) :
    ∀ items : List Json, rebuildItems (fun _ => some) i items = items
  | [] => rfl
  | v :: rest => by
    have hv : rebuild (Change.below (fun _ => some) (.index i)) v = some v := rebuild_some v
    rw [rebuildItems, hv, rebuildItems_some (i + 1) rest]
    rfl

theorem rebuildMembers_some :
    ∀ members : List (String × Json), rebuildMembers (fun _ => some) members = members
  | [] => rfl
  | (key, v) :: rest => by
    have hv : rebuild (Change.below (fun _ => some) (.key key)) v = some v := rebuild_some v
    rw [rebuildMembers, hv, rebuildMembers_some rest]
    rfl

end

end Json
end PathQuery
