import PathQuery.Proofs.Document.Rebuild
import PathQuery.Proofs.Query.Provenance

/-! # Removal is simultaneous

`Path.remove` deletes one location after the other, and a deletion in an array
moves the elements behind it.  The outcome does not show any of this: it is
`prune`, one pass over the original document from the top down that leaves out
every matched location and keeps all the rest in its order (`remove_eq_prune`).
-/

namespace PathQuery
namespace Json

mutual

/-- The document without the entries and elements at the locations that are gone,
where locations are those of the original. -/
def prune (gone : Location → Bool) : Json → Json
  | .array items => .array (pruneItems gone 0 items)
  | .object members => .object (pruneMembers gone members)
  | atom => atom

/-- The elements of an array from index `i` on that are not gone. -/
def pruneItems (gone : Location → Bool) (i : Nat) : List Json → List Json
  | [] => []
  | v :: rest =>
    if gone [.index i] then pruneItems gone (i + 1) rest
    else prune (fun l => gone (.index i :: l)) v :: pruneItems gone (i + 1) rest

/-- The members of an object that are not gone. -/
def pruneMembers (gone : Location → Bool) : List (String × Json) → List (String × Json)
  | [] => []
  | (key, v) :: rest =>
    if gone [.key key] then pruneMembers gone rest
    else (key, prune (fun l => gone (.key key :: l)) v) :: pruneMembers gone rest

end

/-- The change that leaves out what is gone. -/
def Change.leaveOut (gone : Location → Bool) : Change :=
  fun l v => if gone l then none else some v

mutual

theorem rebuild_leaveOut (gone : Location → Bool) :
    ∀ doc : Json, rebuild (.leaveOut gone) doc = if gone [] then none else some (prune gone doc)
  | .array items => by rw [rebuild, rebuildItems_leaveOut, prune, Change.leaveOut]
  | .object members => by rw [rebuild, rebuildMembers_leaveOut, prune, Change.leaveOut]
  | .null | .bool _ | .number _ | .string _ => rfl

theorem rebuildItems_leaveOut (gone : Location → Bool) (i : Nat) :
    ∀ items : List Json, rebuildItems (.leaveOut gone) i items = pruneItems gone i items
  | [] => rfl
  | v :: rest => by
    have hv := rebuild_leaveOut (fun l => gone (.index i :: l)) v
    rw [rebuildItems, rebuildItems_leaveOut gone (i + 1) rest, pruneItems]
    change (rebuild (.leaveOut fun l => gone (.index i :: l)) v).toList ++ _ = _
    rw [hv]
    split <;> rfl

theorem rebuildMembers_leaveOut (gone : Location → Bool) :
    ∀ members : List (String × Json),
      rebuildMembers (.leaveOut gone) members = pruneMembers gone members
  | [] => rfl
  | (key, v) :: rest => by
    have hv := rebuild_leaveOut (fun l => gone (.key key :: l)) v
    rw [rebuildMembers, rebuildMembers_leaveOut gone rest, pruneMembers]
    change ((rebuild (.leaveOut fun l => gone (.key key :: l)) v).map (key, ·)).toList ++ _ = _
    rw [hv]
    split <;> rfl

end

/-- Leaving out one more location. -/
theorem Change.update_leaveOut (gone : Location → Bool) (l : Location) :
    Function.update (Change.leaveOut gone) l (fun _ => none) =
      Change.leaveOut fun l' => gone l' || l' == l := by
  funext l' v
  by_cases h : l' = l <;> simp [h, Change.leaveOut]

end Json

namespace Edit

open Json

/-- Deleting locations one after the other, behind everything that is gone already,
skips none of them and leaves them all out. -/
theorem deleteAll_leaveOut {doc : Json} (hd : doc.DistinctKeys) {targets : List Location}
    (hdesc : targets.Pairwise fun l l' => Location.lt l' l)
    (hvalid : ∀ l ∈ targets, (doc.valueAt? l).isSome) (hroot : [] ∉ targets)
    {gone : Location → Bool} (hgone : ∀ l, gone l = true → ∀ l' ∈ targets, Location.lt l' l)
    {d : Json} (hdoc : rebuild (.leaveOut gone) doc = some d) (removed : Nat) :
    ∃ d', rebuild (.leaveOut fun l => gone l || targets.contains l) doc = some d' ∧
      deleteAll removed d targets = ⟨d', 0, .ok (removed + targets.length)⟩ := by
  induction targets generalizing gone d removed with
  | nil => exact ⟨d, by simpa using hdoc, rfl⟩
  | cons l rest ih =>
    obtain ⟨hl, hrest⟩ := List.pairwise_cons.mp hdesc
    obtain ⟨v, hv⟩ := Option.isSome_iff_exists.mp (hvalid l (List.mem_cons_self ..))
    -- all that is gone lies after `l`, so `l` still leads to where it led at first
    have hbehind : (Change.leaveOut gone).Behind l := by
      intro l' hl'
      have hkept : gone l' ≠ true := fun h => hl' (hgone l' h l (List.mem_cons_self ..))
      funext u
      simp [Change.leaveOut, hkept]
    have hdelete := delete?_rebuild hd hv hbehind hdoc
    rw [Change.update_leaveOut] at hdelete
    have hne : l ≠ [] := fun he => hroot (he ▸ List.mem_cons_self ..)
    -- the root is neither gone nor deleted now, so there is a document left
    have hroot' : (gone [] || ([] : Location) == l) = false := by
      have hkept : gone [] ≠ true := fun h =>
        Location.not_lt_nil l (hgone [] h l (List.mem_cons_self ..))
      simp [hkept, hne]
    obtain ⟨d', hd'⟩ : ∃ d', rebuild (.leaveOut fun l' => gone l' || l' == l) doc = some d' :=
      ⟨_, by rw [rebuild_leaveOut, hroot']; rfl⟩
    have hgone' : ∀ l', (gone l' || l' == l) = true → ∀ l'' ∈ rest, Location.lt l'' l' := by
      intro l' hl' l'' hl''
      rcases Bool.or_eq_true_iff.mp hl' with h | h
      · exact hgone l' h l'' (List.mem_cons_of_mem _ hl'')
      · exact beq_iff_eq.mp h ▸ hl l'' hl''
    obtain ⟨out, hout, hrun⟩ := ih hrest
      (fun l' hl' => hvalid l' (List.mem_cons_of_mem _ hl'))
      (fun hm => hroot (List.mem_cons_of_mem _ hm)) hgone' hd' (removed + 1)
    refine ⟨out, ?_, ?_⟩
    · rw [← hout]
      congr 1
      funext l' u
      simp [Change.leaveOut, Bool.or_assoc]
    · rw [deleteAll, hdelete, hd']
      simp only [hrun, List.length_cons, Nat.add_right_comm removed, Nat.add_assoc]

end Edit

namespace Path

/-- What `remove` does if a query succeeds and does not match the root. -/
theorem remove_of_query {options : Options} {p : Path} {doc : Json} (hd : doc.DistinctKeys)
    {found : List Match} (hq : p.query options doc = .ok found)
    (hroot : ∀ m ∈ found, m.location ≠ []) {targets : List Location}
    (hdesc : targets.Pairwise fun l l' => Location.lt l' l)
    (hmem : ∀ l, l ∈ targets ↔ l ∈ found.map Match.location) :
    p.remove options doc = ⟨doc.prune fun l => l ∈ targets, 0, .ok targets.length⟩ := by
  have htargets : p.targets options doc = .ok targets := by
    rw [targets_of_query hq, Location.eq_distinctDescending hdesc hmem]
  have hnot : ([] : Location) ∉ targets := by
    rw [hmem, List.mem_map]
    rintro ⟨m, hm, he⟩
    exact hroot m hm he
  -- the run starts with nothing gone
  have hstart : Json.rebuild (Json.Change.leaveOut fun _ => false) doc = some doc :=
    Json.rebuild_some doc
  obtain ⟨d, hdoc, hrun⟩ := Edit.deleteAll_leaveOut hd hdesc
    (fun l hl => valueAt?_of_query hd hq ((hmem l).mp hl)) hnot (by simp) hstart 0
  simp only [Bool.false_or, List.contains_eq_mem] at hdoc
  rw [Json.rebuild_leaveOut, if_neg (by simpa using hnot), Option.some.injEq] at hdoc
  have hcontains : targets.contains [] = false := by
    simpa only [List.contains_eq_mem, decide_eq_false_iff_not] using hnot
  rw [remove, htargets]
  simp only [hcontains, Bool.false_eq_true, if_false, hrun, hdoc, Nat.zero_add]

/-- **Removal is simultaneous.**  If a query succeeds and does not match the root,
removal deletes every matched location, counts each of them once, and leaves what
one pass over the original document leaves that drops these locations. -/
theorem remove_eq_prune (options : Options) (p : Path) {doc : Json} (hd : doc.DistinctKeys)
    {found : List Match} (hq : p.query options doc = .ok found)
    (hroot : ∀ m ∈ found, m.location ≠ []) :
    let matched := (found.map Match.location).toFinset
    p.remove options doc = ⟨doc.prune fun l => l ∈ matched, 0, .ok matched.card⟩ := by
  intro matched
  have hremove := remove_of_query hd hq hroot (Location.distinctDescending_pairwise _)
    fun l => Location.mem_distinctDescending
  simpa only [Location.mem_distinctDescending, Location.length_distinctDescending, matched,
    List.mem_toFinset] using hremove

/-- Matches within matches, several elements of one array, and each match found
twice. -/
theorem remove_nested_matches :
    let p : Path := .mk .root []
      [.mk (.descend none) [.mk [.name "x", .index 0, .index (-1), .name "x"]]] ""
    let doc : Json := .object [("x", .object [("x", .null), ("y", .null)]),
      ("a", .array [.null, .bool true, .object [("x", .null)]])]
    doc.DistinctKeys ∧
      (∃ found, p.query {} doc = .ok found ∧ ∀ m ∈ found, m.location ≠ []) ∧
      p.remove {} doc = ⟨.object [("a", .array [.bool true])], 0, .ok 5⟩ := by
  intro p doc
  have hd : doc.DistinctKeys := by
    simp [doc, Json.DistinctKeys, Json.ItemsDistinctKeys, Json.MembersDistinctKeys]
  have heval : ((p.query {} doc).toOption.any fun found => found.map Match.location =
      [[.key "x"], [.key "x"], [.key "x", .key "x"], [.key "x", .key "x"],
        [.key "a", .index 0], [.key "a", .index 2], [.key "a", .index 2, .key "x"],
        [.key "a", .index 2, .key "x"]]) = true := by decide +kernel
  obtain ⟨found, hq, hlocations⟩ := exists_of_any heval
  have hfound := of_decide_eq_true hlocations
  have hroot : ∀ m ∈ found, m.location ≠ [] := by
    intro m hm he
    have hmem := List.mem_map_of_mem (f := Match.location) hm
    rw [hfound, he] at hmem
    simp at hmem
  refine ⟨hd, ⟨found, hq, hroot⟩, ?_⟩
  rw [remove_eq_prune {} p hd hq hroot, hfound]
  rfl

end Path
end PathQuery
