import PathQuery.Proofs.Edit.Atomicity
import PathQuery.Proofs.Edit.QueryAfterSet

/-! # Removing what was created

A key that was created goes to the end of objects that did not have it.  So if the path that
created it is removed, the document comes out as it was at first, with the same order of keys
everywhere: leaving out a last member undoes adding it (`Json.prune_enlarge`), and the path
matches just the members that were added (`Path.remove_created`).
-/

namespace PathQuery
namespace Json

variable {name : String} {new : Location → Option Json} {gone : Location → Bool}

/-- Gone is the member of a name in the objects that have a new value, and nothing else. -/
def Undoes (name : String) (new : Location → Option Json) (gone : Location → Bool) : Prop :=
  ∀ l a, gone (l ++ [a]) = true ↔ a = .key name ∧ (new l).isSome

theorem Undoes.below (h : Undoes name new gone) (a : Accessor) :
    Undoes name (fun l => new (a :: l)) fun l => gone (a :: l) :=
  fun l b => h (a :: l) b

theorem Undoes.keeps_item (h : Undoes name new gone) (i : Nat) : gone [.index i] = false := by
  rw [Bool.eq_false_iff]
  intro hgone
  cases ((h [] (.index i)).mp hgone).1

/-- A member that was there is not gone: if the object has a new value, it lacked the name. -/
theorem Undoes.keeps_member (h : Undoes name new gone) {members : List (String × Json)}
    (hfits : Fits (.key name) new (.object members)) {key : String}
    (hkey : key ∈ members.map Prod.fst) : gone [.key key] = false := by
  rw [Bool.eq_false_iff]
  intro hgone
  obtain ⟨hname, hnew⟩ := (h [] (.key key)).mp hgone
  obtain rfl := Accessor.key.inj hname
  obtain ⟨-, hlacks⟩ := hfits [] _ rfl (Option.isSome_iff_ne_none.mp hnew)
  exact not_mem_keys_of_lookup hlacks hkey

theorem pruneMembers_append (gone : Location → Bool) (xs ys : List (String × Json)) :
    pruneMembers gone (xs ++ ys) = pruneMembers gone xs ++ pruneMembers gone ys := by
  induction xs with
  | nil => rfl
  | cons p xs ih =>
    rw [List.cons_append, pruneMembers, pruneMembers, ih]
    split <;> rfl

/-- What was added is left out. -/
theorem Undoes.pruneMembers_added (h : Undoes name new gone) :
    pruneMembers gone ((new []).elim [] (NewEntry.key name).members) = [] := by
  cases hnew : new [] with
  | none => rfl
  | some value =>
    have hgone : gone [.key name] = true := (h [] (.key name)).mpr ⟨rfl, by simp [hnew]⟩
    simp [NewEntry.members, pruneMembers, hgone]

mutual

/-- Leaving out the members that were added gives the document back. -/
theorem prune_enlarge {name : String} {new : Location → Option Json} {gone : Location → Bool}
    (h : Undoes name new gone) : ∀ doc : Json, doc.DistinctKeys → Fits (.key name) new doc →
      prune gone (enlarge (.key name) new doc) = doc
  | .array items, hd, hfits => by
    have hitems := pruneItems_enlargeItems h 0 items hd
      fun j v hv => hfits.below (a := .index (0 + j)) (by simpa [get?, getIndex?] using hv)
    have hnothing : (new []).elim [] (NewEntry.key name).elements = [] := by
      cases new [] <;> rfl
    rw [enlarge, hnothing, List.append_nil, prune, hitems]
  | .object members, hd, hfits => by
    have hmembers := pruneMembers_enlargeMembers h members hd.2
      (fun key hkey => h.keeps_member hfits hkey)
      fun p hp => hfits.below (a := .key p.1) (lookup_of_mem hd.1 hp)
    rw [enlarge, prune, pruneMembers_append, hmembers, h.pruneMembers_added, List.append_nil]
  | .null, _, _ | .bool _, _, _ | .number _, _, _ | .string _, _, _ => rfl

theorem pruneItems_enlargeItems {name : String} {new : Location → Option Json}
    {gone : Location → Bool} (h : Undoes name new gone) (i : Nat) :
    ∀ items : List Json, ItemsDistinctKeys items →
      (∀ j v, items[j]? = some v → Fits (.key name) (fun l => new (.index (i + j) :: l)) v) →
      pruneItems gone i (enlargeItems (.key name) new i items) = items
  | [], _, _ => rfl
  | v :: rest, hd, hfits => by
    have hv := prune_enlarge (h.below (.index i)) v hd.1 (hfits 0 v rfl)
    have hrest := pruneItems_enlargeItems h (i + 1) rest hd.2 fun j w hw => by
      rw [Nat.add_assoc, Nat.add_comm 1]
      exact hfits (j + 1) w hw
    rw [enlargeItems, pruneItems, if_neg (by simp [h.keeps_item]), hv, hrest]

theorem pruneMembers_enlargeMembers {name : String} {new : Location → Option Json}
    {gone : Location → Bool} (h : Undoes name new gone) :
    ∀ members : List (String × Json), MembersDistinctKeys members →
      (∀ key ∈ members.map Prod.fst, gone [.key key] = false) →
      (∀ p ∈ members, Fits (.key name) (fun l => new (.key p.1 :: l)) p.2) →
      pruneMembers gone (enlargeMembers (.key name) new members) = members
  | [], _, _, _ => rfl
  | (key, v) :: rest, hd, hkept, hfits => by
    have hv := prune_enlarge (h.below (.key key)) v hd.1 (hfits (key, v) (List.mem_cons_self ..))
    have hrest := pruneMembers_enlargeMembers h rest hd.2
      (fun k hk => hkept k (List.mem_cons_of_mem _ hk))
      fun p hp => hfits p (List.mem_cons_of_mem _ hp)
    have hself : gone [.key key] = false := hkept key (List.mem_cons_self ..)
    rw [enlargeMembers, pruneMembers, if_neg (by simp [hself]), hv, hrest]

end

end Json

namespace Edit

theorem assigned_isSome_iff {supply : Nat → Json} {taken : Nat} {targets : List Location}
    {l : Location} : (assigned supply taken targets l).isSome ↔ l ∈ targets := by
  unfold assigned
  split <;> simp_all

end Edit

namespace Location

/-- The distinct locations of a key in given objects are as many as the objects. -/
theorem length_distinctDescending_behind (parents : List Location) (name : String) :
    (distinctDescending (parents.map (· ++ [.key name]))).length = parents.toFinset.card := by
  have hinjective : Function.Injective fun l : Location => l ++ [.key name] :=
    fun l l' heq => List.append_cancel_right heq
  have himage : (parents.map (· ++ [.key name])).toFinset =
      parents.toFinset.image fun l : Location => l ++ [.key name] := by
    ext l
    simp
  rw [length_distinctDescending, himage, Finset.card_image_of_injective _ hinjective]

end Location

/-- Leaving out a key of given objects undoes creating it in them. -/
theorem Json.undoes_assigned (supply : Nat → Json) (parents : List Location) (name : String) :
    Json.Undoes name (Edit.assigned supply 0 (Location.distinctDescending parents))
      fun l => l ∈ Location.distinctDescending (parents.map (· ++ [.key name])) := by
  intro l a
  simp only [decide_eq_true_eq, Location.mem_distinctDescending, Edit.assigned_isSome_iff,
    List.mem_map]
  constructor
  · rintro ⟨l', hl', heq⟩
    obtain ⟨rfl, hlast⟩ := List.append_inj' heq rfl
    exact ⟨(List.singleton_inj.mp hlast).symm, hl'⟩
  · rintro ⟨rfl, hl⟩
    exact ⟨l, hl, rfl⟩

namespace Path

/-- **Removing undoes creating.**  If nothing matches a path without deep scans and filters,
and `set` succeeds by creating a key in `n` distinct objects, then removing the path from the
result removes `n` values and gives the document back as it was, with all keys in their
order. -/
theorem remove_created (options : Options) {p : Path} (hp : p.isPlain = true) {doc : Json}
    (hd : doc.DistinctKeys) {supply : Nat → Json} (hs : ∀ k, (supply k).DistinctKeys)
    (hq : p.query options doc = .ok []) {q : Path} {name : String}
    (hcreation : p.creation? = some (q, .key name)) {n : Nat}
    (hset : (p.set options supply doc).result = .ok n) :
    (∃ parents, q.query options doc = .ok parents ∧
      n = (parents.map Match.location).toFinset.card) ∧
    p.remove options (p.set options supply doc).document = ⟨doc, 0, .ok n⟩ := by
  have h := creation?_eq_some_iff.mp hcreation
  obtain ⟨parents, hparents, -, hfits, hrun⟩ := h.enlarge_of_set hd hq hset
  obtain ⟨_, hparents', -, hcreated⟩ := query_created hp hd hq h hset
  obtain rfl := Except.ok.inj (hparents.symm.trans hparents')
  have hn : n = (parents.map Match.location).toFinset.card := by
    rw [hrun] at hset
    rw [← Location.length_distinctDescending]
    exact (Except.ok.inj hset).symm
  refine ⟨⟨parents, hparents, hn⟩, ?_⟩
  -- the path matches what was created, and that is never the root
  have hremove := remove_of_query (distinctKeys_set hd hs) hcreated (by simp)
    (Location.distinctDescending_pairwise ((parents.map Match.location).map (· ++ [.key name])))
    fun l => by rw [Location.mem_distinctDescending, List.map_map, List.map_map]; rfl
  rw [hremove, Location.length_distinctDescending_behind, hn, hrun]
  rw [Json.prune_enlarge (Json.undoes_assigned supply _ name) doc hd hfits]

/-- An object that is matched twice, and a created value that has the created key itself. -/
theorem remove_created_repeated :
    let p : Path := .mk .root [.mk [.name "b", .name "c", .name "b"]]
      [.mk (.child (.name "x")) []] ""
    let doc : Json := .object [("c", .object [("z", .null), ("y", .null)]), ("b", .object [])]
    let v : Json := .object [("x", .null)]
    (p.set {} (.always v) doc).document =
        .object [("c", .object [("z", .null), ("y", .null), ("x", v)]),
          ("b", .object [("x", v)])] ∧
      p.remove {} (p.set {} (.always v) doc).document = ⟨doc, 0, .ok 2⟩ := by
  intro p doc v
  have hd : doc.DistinctKeys := by
    simp [doc, Json.DistinctKeys, Json.MembersDistinctKeys]
  have hs : ∀ k, (Json.always v k).DistinctKeys := by
    simp [v, Json.always, Json.DistinctKeys, Json.MembersDistinctKeys]
  have hq : p.query {} doc = .ok [] := by cbv
  have hcreation : p.creation? =
      some (.mk .root [.mk [.name "b", .name "c", .name "b"]] [] "", .key "x") := rfl
  have hset : (p.set {} (.always v) doc).result = .ok 2 := by cbv
  exact ⟨by cbv, (remove_created {} rfl hd hs hq hcreation hset).2⟩

end Path
end PathQuery
