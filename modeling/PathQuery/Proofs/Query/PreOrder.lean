import PathQuery.Proofs.Query.Provenance

/-! # A deep scan visits a tree in pre-order

`DeepScan.preorder` lists a value and everything below it by recursion on the value.
What a deep scan does with its stack is to look at these lists one after the other
and to stop at the first value that lies too deep (`DeepScan.visit_eq`).  So it fails
exactly if the value has more levels below it than the limit
(`Match.descendants_isError_iff`), and otherwise it finds each way into the value once
(`Match.mem_descendants_iff`).
-/

namespace PathQuery

/-! ## Levels of a document -/

namespace Json

mutual

/-- How many levels of values there are below a value. -/
def levels : Json → Nat
  | .array items => itemsLevels items
  | .object members => membersLevels members
  | _ => 0

/-- The levels that the elements of an array make. -/
def itemsLevels : List Json → Nat
  | [] => 0
  | v :: rest => max (levels v + 1) (itemsLevels rest)

/-- The levels that the values of an object make. -/
def membersLevels : List (String × Json) → Nat
  | [] => 0
  | (_, v) :: rest => max (levels v + 1) (membersLevels rest)

end

theorem levels_lt_itemsLevels {items : List Json} {v : Json} (h : v ∈ items) :
    v.levels < itemsLevels items := by
  induction items with
  | nil => simp at h
  | cons w rest ih =>
    rw [itemsLevels]
    rcases List.mem_cons.mp h with rfl | h
    · omega
    · have := ih h
      omega

theorem levels_lt_membersLevels {members : List (String × Json)} {p : String × Json}
    (h : p ∈ members) : p.2.levels < membersLevels members := by
  induction members with
  | nil => simp at h
  | cons q rest ih =>
    rw [membersLevels]
    rcases List.mem_cons.mp h with rfl | h
    · omega
    · have := ih h
      omega

theorem exists_of_itemsLevels {items : List Json} {n : Nat} (h : itemsLevels items = n + 1) :
    ∃ v ∈ items, v.levels = n := by
  induction items with
  | nil => simp [itemsLevels] at h
  | cons w rest ih =>
    rw [itemsLevels] at h
    by_cases hw : w.levels = n
    · exact ⟨w, List.mem_cons_self .., hw⟩
    · obtain ⟨v, hmem, hv⟩ := ih (by omega)
      exact ⟨v, List.mem_cons_of_mem _ hmem, hv⟩

theorem exists_of_membersLevels {members : List (String × Json)} {n : Nat}
    (h : membersLevels members = n + 1) : ∃ p ∈ members, p.2.levels = n := by
  induction members with
  | nil => simp [membersLevels] at h
  | cons q rest ih =>
    rw [membersLevels] at h
    by_cases hq : q.2.levels = n
    · exact ⟨q, List.mem_cons_self .., hq⟩
    · obtain ⟨p, hmem, hp⟩ := ih (by omega)
      exact ⟨p, List.mem_cons_of_mem _ hmem, hp⟩

/-- What is behind an accessor has fewer levels. -/
theorem levels_lt_of_get? {doc child : Json} {a : Accessor} (h : doc.get? a = some child) :
    child.levels < doc.levels := by
  cases a with
  | key name =>
    cases doc with
    | object members => exact levels_lt_membersLevels (mem_of_lookup h)
    | _ => simp [get?, getKey?] at h
  | index i =>
    cases doc with
    | array items => exact levels_lt_itemsLevels (List.mem_of_getElem? h)
    | _ => simp [get?, getIndex?] at h

/-- A value with a level below it has a child with one level less. -/
theorem exists_get?_of_levels {doc : Json} (hd : doc.DistinctKeys) {n : Nat}
    (h : doc.levels = n + 1) : ∃ a child, doc.get? a = some child ∧ child.levels = n := by
  cases doc with
  | array items =>
    obtain ⟨v, hmem, hv⟩ := exists_of_itemsLevels h
    obtain ⟨i, hi⟩ := List.getElem?_of_mem hmem
    exact ⟨.index i, v, hi, hv⟩
  | object members =>
    obtain ⟨p, hmem, hp⟩ := exists_of_membersLevels h
    exact ⟨.key p.1, p.2, lookup_of_mem (distinctKeys_object.mp hd).1 hmem, hp⟩
  | _ => simp [levels] at h

theorem length_le_levels {doc v : Json} {l : Location} (h : doc.valueAt? l = some v) :
    l.length ≤ doc.levels := by
  induction l generalizing doc with
  | nil => exact Nat.zero_le _
  | cons a l ih =>
    obtain ⟨child, hc, hv⟩ := Option.bind_eq_some_iff.mp h
    have hlength := ih hv
    have hlevels := levels_lt_of_get? hc
    rw [List.length_cons]
    omega

/-- A way to a value on the lowest level. -/
theorem exists_valueAt?_of_levels {doc : Json} (hd : doc.DistinctKeys) :
    ∃ l v, doc.valueAt? l = some v ∧ l.length = doc.levels := by
  induction hn : doc.levels generalizing doc with
  | zero => exact ⟨[], doc, rfl, rfl⟩
  | succ n ih =>
    obtain ⟨a, child, hc, hlevels⟩ := exists_get?_of_levels hd hn
    obtain ⟨l, v, hv, hlength⟩ := ih (hd.of_get? hc) hlevels
    refine ⟨a :: l, v, ?_, by rw [List.length_cons, hlength]⟩
    rw [valueAt?, hc, Option.bind_some, hv]

end Json

/-! ## The order of visits -/

namespace DeepScan

mutual

/-- A value at some depth and what lies below it: a value before those within it, and
those in the order of their keys or indexes. -/
def preorder (location : Location) (depth : Nat) : Json → List Pending
  | .array items =>
    ⟨⟨location, .array items⟩, depth⟩ :: preorderItems location (depth + 1) 0 items
  | .object members =>
    ⟨⟨location, .object members⟩, depth⟩ :: preorderMembers location (depth + 1) members
  | atom => [⟨⟨location, atom⟩, depth⟩]

/-- The elements of an array from index `i` on, and what lies below them. -/
def preorderItems (location : Location) (depth i : Nat) : List Json → List Pending
  | [] => []
  | v :: rest =>
    preorder (location ++ [.index i]) depth v ++ preorderItems location depth (i + 1) rest

/-- The values of an object, and what lies below them. -/
def preorderMembers (location : Location) (depth : Nat) : List (String × Json) → List Pending
  | [] => []
  | (key, v) :: rest =>
    preorder (location ++ [.key key]) depth v ++ preorderMembers location depth rest

end

/-- A value still to be visited and what lies below it. -/
def Pending.preorder (p : Pending) : List Pending :=
  DeepScan.preorder p.target.location p.depth p.target.value

theorem preorderItems_eq (m : Match) (depth i : Nat) (items : List Json) :
    preorderItems m.location depth i items =
      ((items.mapIdx fun j v => m.below (.index (i + j)) v).map (⟨·, depth⟩)).flatMap
        Pending.preorder := by
  induction items generalizing i with
  | nil => rfl
  | cons v rest ih =>
    rw [preorderItems, ih, List.mapIdx_cons, List.map_cons, List.flatMap_cons]
    simp only [Nat.add_assoc, Nat.add_comm 1]
    rfl

theorem preorderMembers_eq (m : Match) (depth : Nat) (members : List (String × Json)) :
    preorderMembers m.location depth members =
      ((members.map fun (key, v) => m.below (.key key) v).map (⟨·, depth⟩)).flatMap
        Pending.preorder := by
  induction members with
  | nil => rfl
  | cons p rest ih =>
    rw [preorderMembers, ih]
    rfl

/-- A value comes first, and then its children, each with what lies below it. -/
theorem Pending.preorder_eq (p : Pending) :
    p.preorder = p :: (p.target.children.map (⟨·, p.depth + 1⟩)).flatMap Pending.preorder := by
  obtain ⟨⟨location, value⟩, depth⟩ := p
  cases value with
  | array items =>
    have h := preorderItems_eq ⟨location, .array items⟩ (depth + 1) 0 items
    simp only [Nat.zero_add] at h
    exact congrArg (List.cons _) h
  | object members =>
    exact congrArg (List.cons _)
      (preorderMembers_eq ⟨location, .object members⟩ (depth + 1) members)
  | _ => rfl

/-- **What a deep scan does with its stack.**  It visits what lies on the stack and
below, in pre-order, and stops at the first value beyond the limit. -/
theorem visit_eq (limit : Nat) (visited stack : List Pending) :
    visit limit visited stack =
      match (stack.flatMap Pending.preorder).find? fun p => decide (limit < p.depth) with
      | some p => .error (.tooDeep limit p.target.location)
      | none => .ok (visited.reverse ++ stack.flatMap Pending.preorder) := by
  fun_induction visit limit visited stack with
  | case1 visited => simp
  | case2 visited p rest hdepth =>
    rw [List.flatMap_cons, Pending.preorder_eq, List.cons_append,
      List.find?_cons_of_pos (by simpa using hdepth)]
  | case3 visited p rest hdepth ih =>
    rw [ih, List.flatMap_append, List.flatMap_cons, Pending.preorder_eq, List.cons_append,
      List.find?_cons_of_neg (by simpa using hdepth)]
    simp only [List.reverse_cons, List.append_assoc, List.singleton_append]

/-- Each way into a value leads to one of the values that are visited, as deep as the
way is long. -/
theorem Pending.mem_preorder_iff {p q : Pending} (hd : p.target.value.DistinctKeys) :
    q ∈ p.preorder ↔ ∃ l v, p.target.value.valueAt? l = some v ∧
      q = ⟨⟨p.target.location ++ l, v⟩, p.depth + l.length⟩ := by
  induction hn : p.target.value.levels using Nat.strongRecOn generalizing p with
  | ind n ih =>
    subst hn
    -- a child of the value with what lies below it
    have hchild : ∀ a child, p.target.value.get? a = some child →
        (q ∈ Pending.preorder ⟨p.target.below a child, p.depth + 1⟩ ↔
          ∃ l v, child.valueAt? l = some v ∧
            q = ⟨⟨p.target.location ++ a :: l, v⟩, p.depth + (l.length + 1)⟩) := by
      intro a child hc
      have hrest := ih _ (Json.levels_lt_of_get? hc)
        (p := ⟨p.target.below a child, p.depth + 1⟩) (hd.of_get? hc) rfl
      simpa [Match.below, Nat.add_assoc, Nat.add_comm 1] using hrest
    rw [Pending.preorder_eq, List.mem_cons, List.mem_flatMap]
    constructor
    · rintro (rfl | ⟨start, hstart, hq⟩)
      · exact ⟨[], q.target.value, rfl, by simp⟩
      · obtain ⟨child, hmem, rfl⟩ := List.mem_map.mp hstart
        obtain ⟨a, child, hc, rfl⟩ := (Match.mem_children_iff hd).mp hmem
        obtain ⟨l, v, hv, rfl⟩ := (hchild a child hc).mp hq
        refine ⟨a :: l, v, ?_, rfl⟩
        rw [Json.valueAt?, hc, Option.bind_some, hv]
    · rintro ⟨l, v, hv, rfl⟩
      cases l with
      | nil =>
        obtain rfl := Option.some.inj hv
        exact Or.inl (by simp)
      | cons a l =>
        obtain ⟨child, hc, hv⟩ := Option.bind_eq_some_iff.mp hv
        refine Or.inr ⟨⟨p.target.below a child, p.depth + 1⟩, ?_, ?_⟩
        · exact List.mem_map.mpr ⟨_, (Match.mem_children_iff hd).mpr ⟨a, child, hc, rfl⟩, rfl⟩
        · exact (hchild a child hc).mpr ⟨l, v, hv, rfl⟩

end DeepScan

/-! ## Descendants -/

namespace Match

open DeepScan

theorem descendants_eq (limit : Nat) (includeSelf : Bool) (m : Match) :
    m.descendants limit includeSelf =
      match (Pending.preorder ⟨m, 0⟩).find? fun p => decide (limit < p.depth) with
      | some p => .error (.tooDeep limit p.target.location)
      | none => .ok (((Pending.preorder ⟨m, 0⟩).filter fun p =>
          includeSelf || decide (0 < p.depth)).map Pending.target) := by
  rw [descendants, visit_eq]
  simp only [List.flatMap_singleton, List.reverse_nil, List.nil_append]
  split <;> rfl

/-- A deep scan fails exactly if there are more levels below its start than the limit. -/
theorem descendants_isError_iff {limit : Nat} {includeSelf : Bool} {m : Match}
    (hd : m.value.DistinctKeys) :
    (∃ e, m.descendants limit includeSelf = .error e) ↔ limit < m.value.levels := by
  have hdeep : limit < m.value.levels ↔
      ∃ p ∈ Pending.preorder ⟨m, 0⟩, limit < p.depth := by
    constructor
    · intro hlevels
      obtain ⟨l, v, hv, hlength⟩ := Json.exists_valueAt?_of_levels hd
      refine ⟨_, (Pending.mem_preorder_iff hd).mpr ⟨l, v, hv, rfl⟩, ?_⟩
      show limit < 0 + l.length
      omega
    · rintro ⟨p, hp, hdepth⟩
      obtain ⟨l, v, hv, rfl⟩ := (Pending.mem_preorder_iff hd).mp hp
      have hlength : l.length ≤ m.value.levels := Json.length_le_levels hv
      change limit < 0 + l.length at hdepth
      omega
  rw [hdeep, descendants_eq]
  split
  · rename_i p hp
    exact iff_of_true ⟨_, rfl⟩
      ⟨p, List.mem_of_find?_eq_some hp, by simpa using List.find?_some hp⟩
  · rename_i hnone
    refine iff_of_false (by simp) ?_
    rintro ⟨p, hp, hdepth⟩
    simpa [hdepth] using List.find?_eq_none.mp hnone p hp

/-- A deep scan finds what the ways into a value lead to, without the empty way unless
its start is to be included. -/
theorem mem_descendants_iff {limit : Nat} {includeSelf : Bool} {m found : Match}
    {all : List Match} (hd : m.value.DistinctKeys)
    (h : m.descendants limit includeSelf = .ok all) :
    found ∈ all ↔ ∃ l v, (includeSelf = true ∨ l ≠ []) ∧ m.value.valueAt? l = some v ∧
      found = ⟨m.location ++ l, v⟩ := by
  rw [descendants_eq] at h
  split at h
  · simp at h
  · obtain rfl := Except.ok.inj h
    simp only [List.mem_map, List.mem_filter, Pending.mem_preorder_iff (p := ⟨m, 0⟩) hd,
      Bool.or_eq_true, decide_eq_true_eq]
    constructor
    · rintro ⟨p, ⟨⟨l, v, hv, rfl⟩, hself⟩, rfl⟩
      have hne := hself.imp_right fun hpos => List.length_pos_iff.mp (by simpa using hpos)
      exact ⟨l, v, hne, hv, rfl⟩
    · rintro ⟨l, v, hself, hv, rfl⟩
      refine ⟨_, ⟨⟨l, v, hv, rfl⟩, hself.imp_right fun hne => ?_⟩, rfl⟩
      simpa using List.length_pos_iff.mpr hne

end Match
end PathQuery
