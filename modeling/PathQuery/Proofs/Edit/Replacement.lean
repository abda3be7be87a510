import Mathlib
import PathQuery.Proofs.Document.Rebuild
import PathQuery.Proofs.Query.Provenance

/-! # Replacement is simultaneous

`Path.set` writes one value after the other, into a document that holds the values
written before.  The outcome is `overlay`, one pass over the original document from
the top down that puts the new values in the place of the matched ones and does not
look into what it puts there (`set_eq_overlay`).  The supply is asked once for each
matched location, in descending order of locations.
-/

namespace PathQuery
namespace Json

mutual

/-- The document with new values at some locations, where locations are those of
the original and a new value is not looked into. -/
def overlay (new : Location → Option Json) : Json → Json
  | .array items => (new []).getD (.array (overlayItems new 0 items))
  | .object members => (new []).getD (.object (overlayMembers new members))
  | atom => (new []).getD atom

/-- The elements of an array from index `i` on, with new values. -/
def overlayItems (new : Location → Option Json) (i : Nat) : List Json → List Json
  | [] => []
  | v :: rest => overlay (fun l => new (.index i :: l)) v :: overlayItems new (i + 1) rest

/-- The members of an object, with new values. -/
def overlayMembers (new : Location → Option Json) :
    List (String × Json) → List (String × Json)
  | [] => []
  | (key, v) :: rest =>
    (key, overlay (fun l => new (.key key :: l)) v) :: overlayMembers new rest

end

/-- The change that puts new values. -/
def Change.put (new : Location → Option Json) : Change :=
  fun l v => some ((new l).getD v)

mutual

theorem rebuild_put (new : Location → Option Json) :
    ∀ doc : Json, rebuild (Change.put new) doc = some (overlay new doc)
  | .array items => by rw [rebuild, rebuildItems_put, overlay, Change.put]
  | .object members => by rw [rebuild, rebuildMembers_put, overlay, Change.put]
  | .null | .bool _ | .number _ | .string _ => rfl

theorem rebuildItems_put (new : Location → Option Json) (i : Nat) :
    ∀ items : List Json, rebuildItems (Change.put new) i items = overlayItems new i items
  | [] => rfl
  | v :: rest => by
    have hv : rebuild (Change.below (Change.put new) (.index i)) v = _ :=
      rebuild_put (fun l => new (.index i :: l)) v
    rw [rebuildItems, hv, rebuildItems_put new (i + 1) rest, overlayItems]
    rfl

theorem rebuildMembers_put (new : Location → Option Json) :
    ∀ members : List (String × Json),
      rebuildMembers (Change.put new) members = overlayMembers new members
  | [] => rfl
  | (key, v) :: rest => by
    have hv : rebuild (Change.below (Change.put new) (.key key)) v = _ :=
      rebuild_put (fun l => new (.key key :: l)) v
    rw [rebuildMembers, hv, rebuildMembers_put new rest, overlayMembers]
    rfl

end

/-- Putting one more value. -/
theorem Change.update_put (new : Location → Option Json) (l : Location) (value : Json) :
    Function.update (Change.put new) l (fun _ => some value) =
      Change.put (Function.update new l (some value)) := by
  funext l' v
  by_cases h : l' = l
  · subst h
    simp [Change.put]
  · simp [h, Change.put]

/-! ## What an overlay shows -/

theorem overlay_of_some {new : Location → Option Json} {value : Json} (h : new [] = some value)
    (doc : Json) : doc.overlay new = value := by
  cases doc <;> simp [overlay, h]

theorem get?_overlay {new : Location → Option Json} (h : new [] = none) (doc : Json)
    (a : Accessor) :
    (doc.overlay new).get? a = (doc.get? a).map (overlay fun l => new (a :: l)) := by
  have hitems : ∀ (items : List Json) (i j : Nat), (overlayItems new i items)[j]? =
      items[j]?.map (overlay fun l => new (.index (i + j) :: l)) := by
    intro items
    induction items with
    | nil => simp [overlayItems]
    | cons v rest ih =>
      intro i j
      cases j with
      | zero => simp [overlayItems]
      | succ j => simp [overlayItems, ih, Nat.add_assoc, Nat.add_comm 1 j]
  have hmembers : ∀ (members : List (String × Json)) (key : String),
      lookup key (overlayMembers new members) =
        (lookup key members).map (overlay fun l => new (.key key :: l)) := by
    intro members key
    induction members with
    | nil => rfl
    | cons p rest ih =>
      by_cases hk : p.1 = key
      · simp [overlayMembers, lookup, hk]
      · simp [overlayMembers, lookup, hk, ih]
  cases a with
  | key name => cases doc <;> simp [overlay, h, get?, getKey?, hmembers]
  | index i => cases doc <;> simp [overlay, h, get?, getIndex?, hitems]

theorem valueAt?_overlay {new : Location → Option Json} {doc : Json} {l : Location}
    (h : ∀ l', l' <+: l → l' ≠ l → new l' = none) :
    (doc.overlay new).valueAt? l = (doc.valueAt? l).map (overlay fun l' => new (l ++ l')) := by
  induction l generalizing new doc with
  | nil => rfl
  | cons a l ih =>
    have hnil : new [] = none := h [] (List.nil_prefix) (by simp)
    rw [valueAt?, valueAt?, get?_overlay hnil, Option.bind_map, Option.map_bind]
    refine congrArg _ (funext fun child => ih fun l' hl' hne => ?_)
    exact h (a :: l') (by simpa using hl') (by simpa using hne)

/-- A value that is not itself replaced keeps its shape, its keys and its length,
and if it is primitive it stays as it is. -/
theorem overlay_shape {new : Location → Option Json} (h : new [] = none) (v : Json) :
    (v.overlay new).kind = v.kind ∧ (v.overlay new).keys = v.keys ∧
      (v.overlay new).length? = v.length? ∧
      (v.kind = .primitive ∨ v.kind = .null → v.overlay new = v) := by
  have hitems : ∀ (items : List Json) (i : Nat),
      (overlayItems new i items).length = items.length := by
    intro items
    induction items with
    | nil => simp [overlayItems]
    | cons v rest ih => simp [overlayItems, ih]
  have hmembers : ∀ members : List (String × Json),
      (overlayMembers new members).map Prod.fst = members.map Prod.fst := by
    intro members
    induction members with
    | nil => rfl
    | cons p rest ih => simp [overlayMembers, ih]
  cases v <;> simp [overlay, h, kind, keys, length?, hitems, hmembers]

end Json

namespace Edit

open Json

/-- The values of a supply at the locations of a list, from the value after the
first `taken` on. -/
def assigned (supply : Nat → Json) (taken : Nat) (targets : List Location) (l : Location) :
    Option Json :=
  if l ∈ targets then some (supply (taken + targets.idxOf l)) else none

theorem assigned_of_mem {supply : Nat → Json} {taken : Nat} {targets : List Location}
    {l : Location} (h : l ∈ targets) :
    assigned supply taken targets l = some (supply (taken + targets.idxOf l)) :=
  if_pos h

theorem assigned_of_not_mem {supply : Nat → Json} {taken : Nat} {targets : List Location}
    {l : Location} (h : l ∉ targets) : assigned supply taken targets l = none :=
  if_neg h

/-- Values assigned one location at a time. -/
theorem assigned_cons_or {targets : List Location} {l : Location} (h : l ∉ targets)
    (supply : Nat → Json) (taken : Nat) (new : Location → Option Json) :
    (fun l' => (assigned supply (taken + 1) targets l').or
        (Function.update new l (some (supply taken)) l')) =
      fun l' => (assigned supply taken (l :: targets) l').or (new l') := by
  funext l'
  by_cases he : l' = l
  · subst he
    rw [assigned_of_not_mem h, assigned_of_mem (List.mem_cons_self ..)]
    simp
  · by_cases hm : l' ∈ targets
    · rw [assigned_of_mem hm, assigned_of_mem (List.mem_cons_of_mem _ hm),
        List.idxOf_cons_ne _ (Ne.symm he)]
      simp [Nat.add_assoc, Nat.add_comm 1]
    · have hnot : l' ∉ l :: targets := by simp [he, hm]
      rw [assigned_of_not_mem hm, assigned_of_not_mem hnot]
      simp [he]

/-- What has a value stands behind what is still to come, also after one more value. -/
theorem behind_update {targets : List Location} {l : Location}
    (hl : ∀ l' ∈ targets, Location.lt l' l) {new : Location → Option Json}
    (hnew : ∀ l', new l' ≠ none → ∀ l'' ∈ l :: targets, Location.lt l'' l') (value : Json) :
    ∀ l', Function.update new l (some value) l' ≠ none → ∀ l'' ∈ targets, Location.lt l'' l' := by
  intro l' hl' l'' hl''
  by_cases he : l' = l
  · exact he ▸ hl l'' hl''
  · rw [Function.update_of_ne he] at hl'
    exact hnew l' hl' l'' (List.mem_cons_of_mem _ hl'')

theorem none_of_not_lt {targets : List Location} {l : Location} {new : Location → Option Json}
    (hnew : ∀ l', new l' ≠ none → ∀ l'' ∈ l :: targets, Location.lt l'' l') {l' : Location}
    (hl' : ¬ Location.lt l l') : new l' = none :=
  Classical.not_not.mp fun h => hl' (hnew l' h l (List.mem_cons_self ..))

/-- Writing to locations one after the other, behind everything that is written
already, finds each of them and takes one value for it. -/
theorem writeAll_put {doc : Json} (hd : doc.DistinctKeys) {targets : List Location}
    (hdesc : targets.Pairwise fun l l' => Location.lt l' l)
    (hvalid : ∀ l ∈ targets, (doc.valueAt? l).isSome) {new : Location → Option Json}
    (hnew : ∀ l, new l ≠ none → ∀ l' ∈ targets, Location.lt l' l)
    (supply : Nat → Json) (taken : Nat) :
    writeAll supply taken (doc.overlay new) targets =
      ⟨doc.overlay fun l => (assigned supply taken targets l).or (new l),
        taken + targets.length, .ok (taken + targets.length)⟩ := by
  induction targets generalizing new taken with
  | nil => rfl
  | cons l rest ih =>
    obtain ⟨hl, hrest⟩ := List.pairwise_cons.mp hdesc
    obtain ⟨v, hv⟩ := Option.isSome_iff_exists.mp (hvalid l (List.mem_cons_self ..))
    -- all that is written lies after `l`, so `l` still leads to where it led at first
    have hbehind : (Change.put new).Behind l := by
      intro l' hl'
      funext u
      simp [Change.put, none_of_not_lt hnew hl']
    have hw : rebuild ((Change.put new).under l) v = some (v.overlay fun l' => new (l ++ l')) :=
      rebuild_put _ v
    have hexists := valueAt?_rebuild hd hv hbehind (rebuild_put new doc)
    obtain ⟨d', hupdate, hd'⟩ := updateAt?_rebuild hd hv hbehind (rebuild_put new doc) hw
      (f := fun _ => some (supply taken)) rfl
    rw [Change.update_put, rebuild_put, Option.some.injEq] at hd'
    have hwrite : (doc.overlay new).write? l (supply taken) =
        some (doc.overlay (Function.update new l (some (supply taken)))) := by
      rw [write?_eq_updateAt? (by rw [hexists, hw]; rfl), hupdate, hd']
    have hnot : l ∉ rest := fun hm => Location.not_lt_self l (hl l hm)
    rw [writeAll, hwrite]
    simp only [ih hrest (fun l' hl' => hvalid l' (List.mem_cons_of_mem _ hl'))
      (behind_update hl hnew (supply taken)) (taken + 1), assigned_cons_or hnot,
      List.length_cons, Nat.add_assoc, Nat.add_comm 1]

/-- Writing to locations of an unchanged document. -/
theorem writeAll_overlay {doc : Json} (hd : doc.DistinctKeys) {targets : List Location}
    (hdesc : targets.Pairwise fun l l' => Location.lt l' l)
    (hvalid : ∀ l ∈ targets, (doc.valueAt? l).isSome) (supply : Nat → Json) :
    writeAll supply 0 doc targets =
      ⟨doc.overlay (assigned supply 0 targets), targets.length, .ok targets.length⟩ := by
  have hbefore : ∀ l, (fun _ => none : Location → Option Json) l ≠ none →
      ∀ l' ∈ targets, Location.lt l' l := by simp
  have hrun := writeAll_put hd hdesc hvalid hbefore supply 0
  have hnone : doc.overlay (fun _ => none) = doc :=
    Option.some.inj ((rebuild_put _ doc).symm.trans (rebuild_some doc))
  simpa only [hnone, Option.or_none, Nat.zero_add] using hrun

end Edit

namespace Path

/-- What `set` does if something matches. -/
theorem set_of_query {options : Options} {p : Path} {doc : Json} (hd : doc.DistinctKeys)
    {found : List Match} (hq : p.query options doc = .ok found) (hfound : found ≠ [])
    (supply : Nat → Json) {targets : List Location}
    (hdesc : targets.Pairwise fun l l' => Location.lt l' l)
    (hmem : ∀ l, l ∈ targets ↔ l ∈ found.map Match.location) :
    p.set options supply doc =
      ⟨doc.overlay (Edit.assigned supply 0 targets), targets.length, .ok targets.length⟩ := by
  have hvalid : ∀ l ∈ targets, (doc.valueAt? l).isSome :=
    fun l hl => valueAt?_of_query hd hq ((hmem l).mp hl)
  have htargets : p.targets options doc = .ok targets := by
    rw [targets_of_query hq, Location.eq_distinctDescending hdesc hmem]
  cases targets with
  | nil =>
    obtain ⟨m, hm⟩ := List.exists_mem_of_ne_nil found hfound
    exact absurd ((hmem m.location).mpr (List.mem_map_of_mem hm)) (by simp)
  | cons l rest =>
    rw [set, htargets]
    exact Edit.writeAll_overlay hd hdesc hvalid supply

/-- **Replacement is simultaneous.**  If a query succeeds with a match, `set` takes one
value for each matched location, in descending order of locations, and gives what
one pass over the original document gives that puts these values there.  So the
outermost of several nested matches has its new value, and what lies in no match
keeps its shape. -/
theorem set_eq_overlay (options : Options) (p : Path) {doc : Json} (hd : doc.DistinctKeys)
    {found : List Match} (hq : p.query options doc = .ok found) (hfound : found ≠ [])
    (supply : Nat → Json) {targets : List Location}
    (hdesc : targets.Pairwise fun l l' => Location.lt l' l)
    (hmem : ∀ l, l ∈ targets ↔ l ∈ found.map Match.location) :
    let result := doc.overlay (Edit.assigned supply 0 targets)
    p.set options supply doc = ⟨result, targets.length, .ok targets.length⟩ ∧
      (∀ l ∈ targets, (∀ l' ∈ targets, l' <+: l → l' = l) →
        result.valueAt? l = some (supply (targets.idxOf l))) ∧
      ∀ l v, doc.valueAt? l = some v → (∀ l' ∈ targets, ¬ l' <+: l) →
        ∃ w, result.valueAt? l = some w ∧ w.kind = v.kind ∧ w.keys = v.keys ∧
          w.length? = v.length? ∧ (v.kind = .primitive ∨ v.kind = .null → w = v) := by
  intro result
  have hvalid : ∀ l ∈ targets, (doc.valueAt? l).isSome :=
    fun l hl => valueAt?_of_query hd hq ((hmem l).mp hl)
  refine ⟨set_of_query hd hq hfound supply hdesc hmem, fun l hl houter => ?_,
    fun l v hv houtside => ?_⟩
  -- no location above an outermost one is assigned, so the overlay reaches it unchanged
  · obtain ⟨v, hv⟩ := Option.isSome_iff_exists.mp (hvalid l hl)
    have hproper : ∀ l', l' <+: l → l' ≠ l → Edit.assigned supply 0 targets l' = none :=
      fun l' hpre hne => Edit.assigned_of_not_mem fun hm => hne (houter l' hm hpre)
    have hnew : Edit.assigned supply 0 targets (l ++ []) = some (supply (targets.idxOf l)) := by
      rw [List.append_nil, Edit.assigned_of_mem hl, Nat.zero_add]
    rw [Json.valueAt?_overlay hproper, hv, Option.map_some, Json.overlay_of_some hnew]
  · have hnone : ∀ l', l' <+: l → Edit.assigned supply 0 targets l' = none :=
      fun l' hpre => Edit.assigned_of_not_mem fun hm => houtside l' hm hpre
    refine ⟨v.overlay fun l' => Edit.assigned supply 0 targets (l ++ l'), ?_, ?_⟩
    · rw [Json.valueAt?_overlay fun l' hpre _ => hnone l' hpre, hv, Option.map_some]
    · have hself : Edit.assigned supply 0 targets (l ++ []) = none := hnone _ (by simp)
      exact @Json.overlay_shape (fun l' => Edit.assigned supply 0 targets (l ++ l')) hself v

/-- Nested matches, several elements of one array, and a supply that counts. -/
theorem set_nested_matches :
    let p : Path := .mk .root []
      [.mk (.descend none) [.mk [.name "x", .index 0, .index (-1), .name "x"]]] ""
    let doc : Json := .object [("x", .object [("x", .null), ("y", .null)]),
      ("a", .array [.null, .bool true, .object [("x", .null)]])]
    let targets : List Location := [[.key "x", .key "x"], [.key "x"],
      [.key "a", .index 2, .key "x"], [.key "a", .index 2], [.key "a", .index 0]]
    doc.DistinctKeys ∧ targets.Pairwise (fun l l' => Location.lt l' l) ∧
      (∃ found, p.query {} doc = .ok found ∧ found ≠ [] ∧
        ∀ l, l ∈ targets ↔ l ∈ found.map Match.location) ∧
      p.set {} Json.counting doc =
        ⟨.object [("x", Json.counting 1),
          ("a", .array [Json.counting 4, .bool true, Json.counting 3])], 5, .ok 5⟩ := by
  intro p doc targets
  have hd : doc.DistinctKeys := by
    simp [doc, Json.DistinctKeys, Json.ItemsDistinctKeys, Json.MembersDistinctKeys]
  have hdesc : targets.Pairwise fun l l' => Location.lt l' l := by
    simp [targets, Location.lt, Location.le, Accessor.le]
  have heval : ((p.query {} doc).toOption.any fun found => found.map Match.location =
      [[.key "x"], [.key "x"], [.key "x", .key "x"], [.key "x", .key "x"],
        [.key "a", .index 0], [.key "a", .index 2], [.key "a", .index 2, .key "x"],
        [.key "a", .index 2, .key "x"]]) = true := by decide +kernel
  obtain ⟨found, hq, hlocations⟩ := exists_of_any heval
  have hfound := of_decide_eq_true hlocations
  have hne : found ≠ [] := by
    rintro rfl
    simp at hfound
  have hmem : ∀ l, l ∈ targets ↔ l ∈ found.map Match.location := by
    intro l
    rw [hfound]
    simp only [targets, List.mem_cons, List.not_mem_nil, or_false]
    tauto
  refine ⟨hd, hdesc, ⟨found, hq, hne, hmem⟩, ?_⟩
  rw [(set_eq_overlay {} p hd hq hne Json.counting hdesc hmem).1]
  cbv

end Path
end PathQuery
