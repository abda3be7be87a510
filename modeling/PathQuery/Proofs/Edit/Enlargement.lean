import PathQuery.Proofs.Edit.Creation
import PathQuery.Proofs.Edit.LastStep

/-! # Creation is exact

If nothing matches, `Path.set` looks for the matches of the path without its last step,
and adds the entry that the last step names to each of them.  The outcome is `enlarge`,
one pass over the original document that adds one entry at the end of each of these
containers and changes nothing else.  That no match of the path itself was found is what
makes the entry a new one: a key that is there would be overwritten in its place, and an
index that is there would not be the end of the array.

A document can refuse the entry only where a match is no container of the right kind, or
where the index is negative (`Path.set_creates`).
-/

namespace PathQuery

/-- The elements that an entry adds to an array. -/
def NewEntry.elements : NewEntry → Json → List Json
  | .index _, value => [value]
  | .key _, _ => []

/-- The members that an entry adds to an object. -/
def NewEntry.members : NewEntry → Json → List (String × Json)
  | .key name, value => [(name, value)]
  | .index _, _ => []

namespace Json

mutual

/-- The document with an entry at the end of each container that has a new value, where
locations are those of the original. -/
def enlarge (entry : NewEntry) (new : Location → Option Json) : Json → Json
  | .array items => .array (enlargeItems entry new 0 items ++ (new []).elim [] entry.elements)
  | .object members =>
    .object (enlargeMembers entry new members ++ (new []).elim [] entry.members)
  | atom => atom

/-- The elements of an array from index `i` on, with an entry added to containers. -/
def enlargeItems (entry : NewEntry) (new : Location → Option Json) (i : Nat) :
    List Json → List Json
  | [] => []
  | v :: rest =>
    enlarge entry (fun l => new (.index i :: l)) v :: enlargeItems entry new (i + 1) rest

/-- The members of an object, with an entry added to containers. -/
def enlargeMembers (entry : NewEntry) (new : Location → Option Json) :
    List (String × Json) → List (String × Json)
  | [] => []
  | (key, v) :: rest =>
    (key, enlarge entry (fun l => new (.key key :: l)) v) :: enlargeMembers entry new rest

end

theorem keys_enlargeMembers (entry : NewEntry) (new : Location → Option Json)
    (members : List (String × Json)) :
    (enlargeMembers entry new members).map Prod.fst = members.map Prod.fst := by
  induction members with
  | nil => rfl
  | cons p rest ih => simp [enlargeMembers, ih]

theorem not_mem_keys_of_lookup {key : String} {members : List (String × Json)}
    (h : lookup key members = none) : key ∉ members.map Prod.fst := by
  induction members with
  | nil => simp
  | cons p rest ih =>
    rw [lookup] at h
    split at h
    · simp at h
    · rename_i hne
      simpa [Ne.symm hne] using ih h

/-! ## Containers that can take an entry -/

/-- Where there is a new value, the document has a container that can take the entry and
does not have it yet. -/
def Fits (entry : NewEntry) (new : Location → Option Json) (doc : Json) : Prop :=
  ∀ l v, doc.valueAt? l = some v → new l ≠ none → v.hasRoomFor entry = true ∧ v.Lacks entry

section
variable {entry : NewEntry} {new : Location → Option Json}

theorem Fits.below {doc child : Json} {a : Accessor} (h : Fits entry new doc)
    (hc : doc.get? a = some child) : Fits entry (fun l => new (a :: l)) child := by
  intro l v hv hnew
  refine h (a :: l) v ?_ hnew
  rw [valueAt?, hc]
  exact hv

theorem Fits.under {doc v : Json} {l : Location} (h : Fits entry new doc)
    (hv : doc.valueAt? l = some v) : Fits entry (fun l' => new (l ++ l')) v := by
  refine fun l' w hw hnew => h (l ++ l') w ?_ hnew
  rw [valueAt?_append, hv]
  exact hw

/-- A new value for an array goes to its end. -/
theorem Fits.extend_array {items : List Json} (h : Fits entry new (.array items))
    (items' : List Json) : Change.extend entry new [] (.array items') =
      some (.array (items' ++ (new []).elim [] entry.elements)) := by
  cases hnew : new [] with
  | none => simp [Change.extend, hnew]
  | some value =>
    obtain ⟨hroom, -⟩ := h [] _ rfl (by simp [hnew])
    cases entry with
    | key name => simp [hasRoomFor] at hroom
    | index i => simp [Change.extend, hnew, extend?, append?, NewEntry.elements]

/-- A new value for an object goes to its end, as the object does not have the key. -/
theorem Fits.extend_object {members members' : List (String × Json)}
    (h : Fits entry new (.object members))
    (hkeys : members'.map Prod.fst = members.map Prod.fst) :
    Change.extend entry new [] (.object members') =
      some (.object (members' ++ (new []).elim [] entry.members)) := by
  cases hnew : new [] with
  | none => simp [Change.extend, hnew]
  | some value =>
    obtain ⟨hroom, hlacks⟩ := h [] _ rfl (by simp [hnew])
    cases entry with
    | index i => simp [hasRoomFor] at hroom
    | key name =>
      have hnot : name ∉ members'.map Prod.fst := hkeys ▸ not_mem_keys_of_lookup hlacks
      have hinsert : insert name value members' = members' ++ [(name, value)] := by
        simpa [insert] using insert_append value hnot []
      simp [Change.extend, hnew, extend?, setKey?, NewEntry.members, hinsert]

/-- There is no new value for any other value. -/
theorem Fits.extend_atom {atom : Json} (h : Fits entry new atom)
    (hroom : ∀ entry, atom.hasRoomFor entry = false) :
    Change.extend entry new [] atom = some atom := by
  cases hnew : new [] with
  | none => simp [Change.extend, hnew]
  | some value =>
    obtain ⟨htrue, -⟩ := h [] _ rfl (by simp [hnew])
    simp [hroom] at htrue

end

mutual

/-- Adding entries from the inside out is adding them in one pass. -/
theorem rebuild_extend (entry : NewEntry) (new : Location → Option Json) :
    ∀ doc : Json, doc.DistinctKeys → Fits entry new doc →
      rebuild (Change.extend entry new) doc = some (enlarge entry new doc)
  | .array items, hd, h => by
    have hitems := rebuildItems_extend entry new 0 items hd
      fun j v hv => h.below (a := .index (0 + j)) (by simpa [get?, getIndex?] using hv)
    rw [rebuild, hitems, h.extend_array, enlarge]
  | .object members, hd, h => by
    have hmembers := rebuildMembers_extend entry new members hd.2
      fun p hp => h.below (a := .key p.1) (lookup_of_mem hd.1 hp)
    rw [rebuild, hmembers, h.extend_object (keys_enlargeMembers entry new members), enlarge]
  | .null, _, h => h.extend_atom fun entry => by cases entry <;> rfl
  | .bool _, _, h => h.extend_atom fun entry => by cases entry <;> rfl
  | .number _, _, h => h.extend_atom fun entry => by cases entry <;> rfl
  | .string _, _, h => h.extend_atom fun entry => by cases entry <;> rfl

theorem rebuildItems_extend (entry : NewEntry) (new : Location → Option Json) (i : Nat) :
    ∀ items : List Json, ItemsDistinctKeys items →
      (∀ j v, items[j]? = some v → Fits entry (fun l => new (.index (i + j) :: l)) v) →
      rebuildItems (Change.extend entry new) i items = enlargeItems entry new i items
  | [], _, _ => rfl
  | v :: rest, hd, h => by
    have hv : rebuild (Change.below (Change.extend entry new) (.index i)) v = _ :=
      rebuild_extend entry (fun l => new (.index i :: l)) v hd.1 (h 0 v rfl)
    have hrest := rebuildItems_extend entry new (i + 1) rest hd.2 fun j w hw => by
      rw [Nat.add_assoc, Nat.add_comm 1]
      exact h (j + 1) w hw
    rw [rebuildItems, hv, hrest, enlargeItems]
    rfl

theorem rebuildMembers_extend (entry : NewEntry) (new : Location → Option Json) :
    ∀ members : List (String × Json), MembersDistinctKeys members →
      (∀ p ∈ members, Fits entry (fun l => new (.key p.1 :: l)) p.2) →
      rebuildMembers (Change.extend entry new) members = enlargeMembers entry new members
  | [], _, _ => rfl
  | (key, v) :: rest, hd, h => by
    have hv : rebuild (Change.below (Change.extend entry new) (.key key)) v = _ :=
      rebuild_extend entry (fun l => new (.key key :: l)) v hd.1
        (h (key, v) (List.mem_cons_self ..))
    have hrest := rebuildMembers_extend entry new rest hd.2
      fun p hp => h p (List.mem_cons_of_mem _ hp)
    rw [rebuildMembers, hv, hrest, enlargeMembers]
    rfl

end

/-- What is created under a key is found under that key. -/
theorem Fits.getKey?_enlarge {name : String} {new : Location → Option Json} {v value : Json}
    (h : Fits (.key name) new v) (hnew : new [] = some value) :
    (v.enlarge (.key name) new).getKey? name = some value := by
  obtain ⟨hroom, hlacks⟩ := h [] v rfl (by simp [hnew])
  cases v with
  | object members =>
    have hnot : name ∉ (enlargeMembers (.key name) new members).map Prod.fst := by
      rw [keys_enlargeMembers]
      exact not_mem_keys_of_lookup hlacks
    rw [enlarge, hnew, getKey?, lookup_append hnot]
    simp [NewEntry.members, lookup]
  | _ => simp [hasRoomFor] at hroom

/-! ## Values that refuse an entry -/

/-- The value is no container for the entry, or the index is negative. -/
def Declines (v : Json) : NewEntry → Prop
  | .key _ => v.kind ≠ .object
  | .index i => v.kind ≠ .array ∨ i.toInt < 0

/-- An index that an array lacks is negative, or not before its end. -/
theorem hasRoomFor_iff {v : Json} {entry : NewEntry} (h : v.Lacks entry) :
    v.hasRoomFor entry = true ↔ ¬ v.Declines entry := by
  cases entry with
  | key name => cases v <;> simp [hasRoomFor, Declines, kind]
  | index i =>
    cases v with
    | array items =>
      have hplace : placeOf i items.length = none := h items.length rfl
      simp only [hasRoomFor, Declines, kind, Bool.and_eq_true, decide_eq_true_eq]
      constructor
      · rintro ⟨hi, -⟩ (hkind | hneg)
        · exact hkind rfl
        · omega
      · intro hnot
        have hi : 0 ≤ i.toInt := Int.not_lt.mp fun hneg => hnot (Or.inr hneg)
        exact ⟨hi, le_of_placeOf_eq_none hi hplace⟩
    | _ => simp [hasRoomFor, Declines, kind]

end Json

namespace Edit

open Json

/-- Values go to containers that can take the entry. -/
theorem fits_assigned {doc : Json} {entry : NewEntry} {targets : List Location}
    (hvalid : ∀ l ∈ targets, ∃ v, doc.valueAt? l = some v ∧ v.hasRoomFor entry = true ∧
      v.Lacks entry) (supply : Nat → Json) : Fits entry (assigned supply 0 targets) doc := by
  intro l v hv hnew
  have hl : l ∈ targets := by
    by_contra hnot
    exact hnew (assigned_of_not_mem hnot)
  obtain ⟨v', hv', hfit⟩ := hvalid l hl
  obtain rfl := Option.some.inj (hv.symm.trans hv')
  exact hfit

/-- Extending containers of an unchanged document. -/
theorem extendAll_enlarge {doc : Json} (hd : doc.DistinctKeys) {entry : NewEntry}
    {targets : List Location} (hdesc : targets.Pairwise fun l l' => Location.lt l' l)
    (hvalid : ∀ l ∈ targets, ∃ v, doc.valueAt? l = some v ∧ v.hasRoomFor entry = true ∧
      v.Lacks entry) (supply : Nat → Json) :
    extendAll entry supply 0 doc targets =
      ⟨doc.enlarge entry (assigned supply 0 targets), targets.length, .ok targets.length⟩ := by
  have hunchanged : rebuild (Change.extend entry fun _ => none) doc = some doc := rebuild_some doc
  obtain ⟨d, hd', hrun⟩ := extendAll_extend hd hdesc
    (fun l hl => by obtain ⟨v, hv, hroom, -⟩ := hvalid l hl; exact ⟨v, hv, hroom⟩)
    (by simp) hunchanged supply 0
  simp only [Option.or_none, rebuild_extend entry _ doc hd (fits_assigned hvalid supply),
    Option.some.injEq] at hd'
  rw [hrun, ← hd', Nat.zero_add]

end Edit

namespace Path

variable {p q : Path} {entry : NewEntry} {options : Options} {doc : Json}

theorem Extends.unique (h : p.Extends q entry) {q' : Path} {entry' : NewEntry}
    (h' : p.Extends q' entry') : q = q' ∧ entry = entry' := by
  have heq := (creation?_eq_some_iff.mpr h).symm.trans (creation?_eq_some_iff.mpr h')
  exact Prod.mk.inj (Option.some.inj heq)

theorem targets_of_nil (hq : p.query options doc = .ok []) : p.targets options doc = .ok [] := by
  rw [targets_of_query hq]
  simp [Location.distinctDescending, Location.dropRepeats]

theorem set_of_nil (hq : p.query options doc = .ok []) (supply : Nat → Json) :
    p.set options supply doc = p.create options supply doc := by
  rw [set, targets_of_nil hq]

/-- A path that extends no other has no last step that could be created. -/
theorem create_of_not_extends (h : ∀ q entry, ¬ p.Extends q entry) (supply : Nat → Json) :
    p.create options supply doc = .refused doc (.notFound p.source) := by
  have hnone : p.creation? = none := by
    by_contra hsome
    obtain ⟨⟨q, entry⟩, hcreation⟩ := Option.ne_none_iff_exists'.mp hsome
    exact h q entry (creation?_eq_some_iff.mp hcreation)
  rw [create, hnone]

/-- There is nothing to add to. -/
theorem Extends.create_of_nil (h : p.Extends q entry) (hq : q.query options doc = .ok [])
    (supply : Nat → Json) : p.create options supply doc = .refused doc (.notFound p.source) := by
  rw [create, creation?_eq_some_iff.mpr h]
  simp only [hq]

/-- One of the matches has no room. -/
theorem Extends.create_of_noRoom (h : p.Extends q entry) {found : List Match}
    (hq : q.query options doc = .ok found) {m : Match} (hm : m ∈ found)
    (hroom : m.value.hasRoomFor entry = false) (supply : Nat → Json) :
    ∃ kind l, p.create options supply doc =
      .refused doc (.evaluation (.noRoom entry kind l)) := by
  obtain ⟨m', hm'⟩ : ∃ m', firstWithoutRoom? entry found = some m' := by
    rw [← Option.isSome_iff_exists, firstWithoutRoom?, List.find?_isSome]
    exact ⟨m, hm, by simp [hroom]⟩
  have hne : found ≠ [] := List.ne_nil_of_mem hm
  refine ⟨m'.value.kind, m'.location, ?_⟩
  rw [create, creation?_eq_some_iff.mpr h]
  simp only [hq, hm']

/-- All matches have room. -/
theorem Extends.create_of_room (h : p.Extends q entry) {found : List Match}
    (hq : q.query options doc = .ok found) (hne : found ≠ [])
    (hroom : ∀ m ∈ found, m.value.hasRoomFor entry = true) (supply : Nat → Json) :
    p.create options supply doc = Edit.extendAll entry supply 0 doc
      (Location.distinctDescending (found.map Match.location)) := by
  have hnone : firstWithoutRoom? entry found = none := by
    rw [firstWithoutRoom?, List.find?_eq_none]
    intro m hm
    simp [hroom m hm]
  rw [create, creation?_eq_some_iff.mpr h]
  simp only [hq, hnone]

/-- What `set` does if nothing matches, case by case. -/
theorem set_cases_of_nil (hq : p.query options doc = .ok []) (supply : Nat → Json) :
    ((∀ q entry, p.Extends q entry → q.query options doc = .ok []) ∧
      p.set options supply doc = .refused doc (.notFound p.source)) ∨
    ∃ q entry found, p.Extends q entry ∧ q.query options doc = .ok found ∧ found ≠ [] ∧
      (∀ m ∈ found, m.value.Lacks entry) ∧
      (((∃ m ∈ found, m.value.Declines entry) ∧
          ∃ kind l, p.set options supply doc =
            .refused doc (.evaluation (.noRoom entry kind l))) ∨
        ((∀ m ∈ found, ¬ m.value.Declines entry) ∧
          p.set options supply doc = Edit.extendAll entry supply 0 doc
            (Location.distinctDescending (found.map Match.location)))) := by
  rw [set_of_nil hq]
  by_cases hext : ∃ q entry, p.Extends q entry
  · obtain ⟨q, entry, h⟩ := hext
    obtain ⟨found, hfound, hlacks⟩ := h.query_of_nil hq
    by_cases hne : found = []
    · subst hne
      refine Or.inl ⟨fun q' entry' h' => ?_, h.create_of_nil hfound supply⟩
      rw [← (h.unique h').1]
      exact hfound
    · refine Or.inr ⟨q, entry, found, h, hfound, hne, hlacks, ?_⟩
      by_cases hdeclines : ∃ m ∈ found, m.value.Declines entry
      · obtain ⟨m, hm, hdecline⟩ := hdeclines
        have hroom : m.value.hasRoomFor entry = false := by
          rw [Bool.eq_false_iff]
          exact fun hroom => (Json.hasRoomFor_iff (hlacks m hm)).mp hroom hdecline
        exact Or.inl ⟨⟨m, hm, hdecline⟩, h.create_of_noRoom hfound hm hroom supply⟩
      · have hnot : ∀ m ∈ found, ¬ m.value.Declines entry :=
          fun m hm hdecline => hdeclines ⟨m, hm, hdecline⟩
        have hroom : ∀ m ∈ found, m.value.hasRoomFor entry = true :=
          fun m hm => (Json.hasRoomFor_iff (hlacks m hm)).mpr (hnot m hm)
        exact Or.inr ⟨hnot, h.create_of_room hfound hne hroom supply⟩
  · have hnone : ∀ q entry, ¬ p.Extends q entry := fun q entry h => hext ⟨q, entry, h⟩
    exact Or.inl ⟨fun q entry h => absurd h (hnone q entry), create_of_not_extends hnone supply⟩

/-- The matches of the path without its last step can take the entry. -/
theorem fits_of_query (hd : doc.DistinctKeys) {found : List Match}
    (hfound : q.query options doc = .ok found) (hlacks : ∀ m ∈ found, m.value.Lacks entry)
    (hnot : ∀ m ∈ found, ¬ m.value.Declines entry) {targets : List Location}
    (hmem : ∀ l, l ∈ targets ↔ l ∈ found.map Match.location) :
    ∀ l ∈ targets, ∃ v, doc.valueAt? l = some v ∧ v.hasRoomFor entry = true ∧
      v.Lacks entry := by
  intro l hl
  obtain ⟨m, hm, rfl⟩ := List.mem_map.mp ((hmem l).mp hl)
  have hroom := (Json.hasRoomFor_iff (hlacks m hm)).mpr (hnot m hm)
  exact ⟨m.value, query_located hd hfound m hm, hroom, hlacks m hm⟩

/-- The containers around the last step of a path take one entry each, at their end. -/
theorem extendAll_of_query (hd : doc.DistinctKeys) {found : List Match}
    (hfound : q.query options doc = .ok found) (hlacks : ∀ m ∈ found, m.value.Lacks entry)
    (hnot : ∀ m ∈ found, ¬ m.value.Declines entry) {targets : List Location}
    (hdesc : targets.Pairwise fun l l' => Location.lt l' l)
    (hmem : ∀ l, l ∈ targets ↔ l ∈ found.map Match.location) (supply : Nat → Json) :
    Edit.extendAll entry supply 0 doc (Location.distinctDescending (found.map Match.location)) =
      ⟨doc.enlarge entry (Edit.assigned supply 0 targets), targets.length,
        .ok targets.length⟩ := by
  rw [← Location.eq_distinctDescending hdesc hmem]
  exact Edit.extendAll_enlarge hd hdesc (fits_of_query hd hfound hlacks hnot hmem) supply

/-- If `set` succeeds where nothing matches, it has added the entry to all matches of the path
without its last step. -/
theorem Extends.enlarge_of_set (h : p.Extends q entry) (hd : doc.DistinctKeys)
    (hq : p.query options doc = .ok []) {supply : Nat → Json} {n : Nat}
    (hset : (p.set options supply doc).result = .ok n) :
    ∃ found, q.query options doc = .ok found ∧ found ≠ [] ∧
      let targets := Location.distinctDescending (found.map Match.location)
      Json.Fits entry (Edit.assigned supply 0 targets) doc ∧
        p.set options supply doc =
          ⟨doc.enlarge entry (Edit.assigned supply 0 targets), targets.length,
            .ok targets.length⟩ := by
  rcases set_cases_of_nil hq supply with ⟨-, hrefused⟩ |
    ⟨q', entry', found, h', hfound, hne, hlacks, ⟨-, kind, l, hrefused⟩ | ⟨hnot, hrun⟩⟩
  · simp [hrefused, Edit.refused] at hset
  · simp [hrefused, Edit.refused] at hset
  · obtain ⟨rfl, rfl⟩ := h.unique h'
    have hmem : ∀ l, l ∈ Location.distinctDescending (found.map Match.location) ↔
        l ∈ found.map Match.location := fun l => Location.mem_distinctDescending
    have hvalid := fits_of_query hd hfound hlacks hnot hmem
    refine ⟨found, hfound, hne, Edit.fits_assigned hvalid supply, hrun.trans ?_⟩
    exact extendAll_of_query hd hfound hlacks hnot (Location.distinctDescending_pairwise _) hmem
      supply

/-- **Creation is exact.**  If a query succeeds with no match, then so does a query of the
path without its last step, if there is such a path `q`.  `set` finds nothing exactly if
there is none, or it has no match either; and it fails to be evaluated exactly if a match of
`q` is not an object, for a name, or is not an array, for an index, or if the index is
negative.  Otherwise it takes one value for each matched location of `q`, in descending
order of locations, and gives what one pass over the original document gives that adds one
entry with this value at the end of each of them. -/
theorem set_creates (options : Options) (p : Path) {doc : Json} (hd : doc.DistinctKeys)
    (hq : p.query options doc = .ok []) (supply : Nat → Json) :
    (∀ q entry, p.Extends q entry → ∃ found, q.query options doc = .ok found) ∧
    ((p.set options supply doc).result = .error (.notFound p.source) ↔
      ∀ q entry, p.Extends q entry → q.query options doc = .ok []) ∧
    ((∃ e, (p.set options supply doc).result = .error (.evaluation e)) ↔
      ∃ q entry found, p.Extends q entry ∧ q.query options doc = .ok found ∧
        ∃ m ∈ found, m.value.Declines entry) ∧
    ∀ q entry found targets, p.Extends q entry → q.query options doc = .ok found → found ≠ [] →
      (∀ m ∈ found, ¬ m.value.Declines entry) →
      targets.Pairwise (fun l l' => Location.lt l' l) →
      (∀ l, l ∈ targets ↔ l ∈ found.map Match.location) →
      p.set options supply doc =
        ⟨doc.enlarge entry (Edit.assigned supply 0 targets), targets.length,
          .ok targets.length⟩ := by
  refine ⟨fun q entry h => ?_, ?_⟩
  · obtain ⟨found, hfound, -⟩ := h.query_of_nil hq
    exact ⟨found, hfound⟩
  rcases set_cases_of_nil hq supply with ⟨hall, hset⟩ |
    ⟨q, entry, found, h, hfound, hne, hlacks, hcase⟩
  · -- there is nothing to add to, so nothing declines and nothing is added
    refine ⟨iff_of_true (congrArg Edit.result hset) hall, iff_of_false ?_ ?_, ?_⟩
    · simp [hset, Edit.refused]
    · rintro ⟨q, entry, found, h, hfound, m, hm, -⟩
      obtain rfl := Except.ok.inj ((hall q entry h).symm.trans hfound)
      simp at hm
    · intro q entry found targets h hfound hne
      exact absurd (Except.ok.inj (hfound.symm.trans (hall q entry h))) hne
  · -- any other path, entry and matches are the ones that `set` works with
    have hsame : ∀ q' entry' found', p.Extends q' entry' → q'.query options doc = .ok found' →
        entry' = entry ∧ found' = found := by
      intro q' entry' found' h' hfound'
      obtain ⟨rfl, rfl⟩ := h.unique h'
      exact ⟨rfl, Except.ok.inj (hfound'.symm.trans hfound)⟩
    have hsome : ¬ ∀ q entry, p.Extends q entry → q.query options doc = .ok [] := fun hall =>
      hne (Except.ok.inj (hfound.symm.trans (hall q entry h)))
    rcases hcase with ⟨hdeclines, kind, l, hset⟩ | ⟨hnot, hset⟩
    · refine ⟨iff_of_false (by simp [hset, Edit.refused]) hsome,
        iff_of_true ⟨_, congrArg Edit.result hset⟩ ⟨q, entry, found, h, hfound, hdeclines⟩, ?_⟩
      intro q' entry' found' targets h' hfound' _ hnot
      obtain ⟨rfl, rfl⟩ := hsame q' entry' found' h' hfound'
      obtain ⟨m, hm, hdecline⟩ := hdeclines
      exact absurd hdecline (hnot m hm)
    · have hsucceeds := extendAll_of_query hd hfound hlacks hnot
        (Location.distinctDescending_pairwise _) (fun l => Location.mem_distinctDescending) supply
      have hresult := congrArg Edit.result (hset.trans hsucceeds)
      refine ⟨iff_of_false (by simp [hresult]) hsome, iff_of_false (by simp [hresult]) ?_, ?_⟩
      · rintro ⟨q', entry', found', h', hfound', m, hm, hdecline⟩
        obtain ⟨rfl, rfl⟩ := hsame q' entry' found' h' hfound'
        exact hnot m hm hdecline
      · intro q' entry' found' targets h' hfound' _ _ hdesc hmem
        obtain ⟨rfl, rfl⟩ := hsame q' entry' found' h' hfound'
        exact hset.trans (extendAll_of_query hd hfound hlacks hnot hdesc hmem supply)

/-- Containers within one another, and a supply that counts. -/
theorem set_creates_in_nested_objects :
    let q : Path := .mk .root [] [.mk (.descend none) [.mk [.wildcard]], .mk .here []] ""
    let p : Path :=
      .mk .root [] [.mk (.descend none) [.mk [.wildcard]], .mk .here [.mk [.name "x"]]] ""
    let doc : Json := .object [("a", .object [("b", .object [])]), ("c", .object [])]
    doc.DistinctKeys ∧ p.query {} doc = .ok [] ∧ p.Extends q (.key "x") ∧
      p.set {} Json.counting doc =
        ⟨.object [("a", .object [("b", .object [("x", Json.counting 1)]),
            ("x", Json.counting 2)]), ("c", .object [("x", Json.counting 0)])], 3, .ok 3⟩ := by
  intro q p doc
  have hd : doc.DistinctKeys := by
    simp [doc, Json.DistinctKeys, Json.MembersDistinctKeys]
  have hq : p.query {} doc = .ok [] := by cbv
  have h : p.Extends q (.key "x") := creation?_eq_some_iff.mp rfl
  have heval : ((q.query {} doc).toOption.any fun found =>
      found.map Match.location = [[.key "a"], [.key "c"], [.key "a", .key "b"]] ∧
        ∀ m ∈ found, m.value.kind = .object) = true := by decide +kernel
  obtain ⟨found, hfound, hfacts⟩ := exists_of_any heval
  obtain ⟨hlocations, hobjects⟩ := of_decide_eq_true hfacts
  have hne : found ≠ [] := by
    rintro rfl
    simp at hlocations
  have hcreates := (set_creates {} p hd hq Json.counting).2.2.2 q (.key "x") found
    [[.key "c"], [.key "a", .key "b"], [.key "a"]] h hfound hne
    (fun m hm hdecline => hdecline (hobjects m hm))
    (by simp [Location.lt, Location.le, Accessor.le])
    (fun l => by
      rw [hlocations]
      simp only [List.mem_cons, List.not_mem_nil, or_false]
      tauto)
  refine ⟨hd, hq, h, ?_⟩
  rw [hcreates]
  cbv

end Path
end PathQuery
