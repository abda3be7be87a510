import Mathlib.Data.List.Chain
import Mathlib.Data.List.Nodup
import PathQuery.Proofs.Query.Locations
import PathQuery.Proofs.Query.PreOrder

/-! # What a deep scan returns

`Match.subtree` lists a match and everything below it by recursion on its value, without a
stack and without a limit.  A deep scan returns this list, with or without the match itself,
unless the value has more levels than the limit allows; then it names the first match of the
list that lies one level too deep (`Match.descendants_preorder`).

The loop behind it takes one value off its stack in each turn and puts the children of the
value there, so there are no more turns than values (`DeepScan.exists_turns`).
-/

namespace PathQuery

/-! ## Turns of the loop -/

namespace DeepScan

/-- The loop of a deep scan ends after a number of turns, with the values visited or at a value
beyond the limit. -/
inductive Turns (limit : Nat) :
    List Pending → List Pending → Nat → Except EvalError (List Pending) → Prop
  /-- Nothing is left on the stack. -/
  | done (visited : List Pending) : Turns limit visited [] 0 (.ok visited.reverse)
  /-- The value on top lies too deep. -/
  | refused {visited rest : List Pending} {p : Pending} (deep : limit < p.depth) :
    Turns limit visited (p :: rest) 1 (.error (.tooDeep limit p.target.location))
  /-- The value on top is visited, and its children take its place. -/
  | visited {visited rest : List Pending} {p : Pending} {turns : Nat}
      {result : Except EvalError (List Pending)} (shallow : ¬limit < p.depth)
      (next : Turns limit (p :: visited)
        (p.target.children.map (⟨·, p.depth + 1⟩) ++ rest) turns result) :
    Turns limit visited (p :: rest) (turns + 1) result

/-- **The loop ends**, after no more turns than there are values on the stack and below. -/
theorem exists_turns (limit : Nat) (visited stack : List Pending) :
    ∃ turns ≤ load stack, Turns limit visited stack turns (visit limit visited stack) := by
  fun_induction visit limit visited stack with
  | case1 visited => exact ⟨0, Nat.zero_le _, .done visited⟩
  | case2 visited p rest hdepth =>
    have hpos : 0 < p.target.value.size := p.target.value.size_pos
    refine ⟨1, ?_, .refused hdepth⟩
    rw [load]
    omega
  | case3 visited p rest hdepth ih =>
    obtain ⟨turns, hturns, hnext⟩ := ih
    have hchildren := load_children p.target (p.depth + 1)
    refine ⟨turns + 1, ?_, .visited hdepth hnext⟩
    rw [load_append] at hturns
    rw [load]
    omega

theorem size_le_load {p : Pending} {stack : List Pending} (h : p ∈ stack) :
    p.target.value.size ≤ load stack := by
  induction stack with
  | nil => simp at h
  | cons q rest ih =>
    rw [load]
    rcases List.mem_cons.mp h with rfl | h
    · omega
    · have := ih h
      omega

end DeepScan

/-! ## Children -/

namespace Match

open DeepScan

variable {m child : Match}

theorem size_lt_of_mem_children (h : child ∈ m.children) : child.value.size < m.value.size := by
  have hchildren := load_children m 0
  have hchild := size_le_load (List.mem_map_of_mem (f := (⟨·, 0⟩ : Match → Pending)) h)
  change child.value.size ≤ _ at hchild
  omega

/-- What holds of a match if it holds of its children holds of every match. -/
theorem children_induction {P : Match → Prop}
    (step : ∀ m, (∀ child ∈ m.children, P child) → P m) (m : Match) : P m := by
  induction hn : m.value.size using Nat.strongRecOn generalizing m with
  | ind n ih =>
    subst hn
    exact step m fun child hchild => ih _ (size_lt_of_mem_children hchild) child rfl

theorem levels_lt_of_mem_children (h : child ∈ m.children) :
    child.value.levels < m.value.levels := by
  unfold children at h
  split at h
  · rename_i members hm
    obtain ⟨p, hp, rfl⟩ := List.mem_map.mp h
    rw [hm]
    exact Json.levels_lt_membersLevels hp
  · rename_i items hm
    obtain ⟨i, hi, rfl⟩ := List.mem_mapIdx.mp h
    rw [hm]
    exact Json.levels_lt_itemsLevels (List.getElem_mem hi)
  · simp at h

/-- A match with a level below it has a child with one level less. -/
theorem exists_child_of_levels {n : Nat} (h : m.value.levels = n + 1) :
    ∃ child ∈ m.children, child.value.levels = n := by
  unfold children
  cases hv : m.value with
  | array items =>
    rw [hv] at h
    obtain ⟨v, hmem, hv⟩ := Json.exists_of_itemsLevels h
    obtain ⟨i, hi, rfl⟩ := List.getElem_of_mem hmem
    exact ⟨_, List.mem_mapIdx.mpr ⟨i, hi, rfl⟩, hv⟩
  | object members =>
    rw [hv] at h
    obtain ⟨p, hmem, hp⟩ := Json.exists_of_membersLevels h
    exact ⟨_, List.mem_map.mpr ⟨p, hmem, rfl⟩, hp⟩
  | _ => simp [hv, Json.levels] at h

end Match

/-! ## The list of visits -/

namespace DeepScan

variable {m : Match} {depth : Nat} {q : Pending}

theorem Pending.mem_preorder_iff_children : q ∈ preorder ⟨m, depth⟩ ↔
    q = ⟨m, depth⟩ ∨ ∃ child ∈ m.children, q ∈ preorder ⟨child, depth + 1⟩ := by
  rw [preorder_eq, List.mem_cons, List.flatMap_map, List.mem_flatMap]

/-- A value is visited as deep as its location goes on from where the visits start. -/
theorem Pending.location_of_mem_preorder (h : q ∈ preorder ⟨m, depth⟩) :
    ∃ l, q.target.location = m.location ++ l ∧ q.depth = depth + l.length := by
  induction m using Match.children_induction generalizing depth with
  | step m ih =>
    rcases mem_preorder_iff_children.mp h with rfl | ⟨child, hchild, hq⟩
    · exact ⟨[], (List.append_nil _).symm, rfl⟩
    · obtain ⟨l, hl, hdepth⟩ := ih child hchild hq
      obtain ⟨a, ha⟩ := Match.location_of_mem_children hchild
      refine ⟨a :: l, by rw [hl, ha, List.append_assoc, List.singleton_append], ?_⟩
      rw [hdepth, List.length_cons]
      omega

theorem Pending.depth_le_of_mem_preorder (h : q ∈ preorder ⟨m, depth⟩) :
    q.depth ≤ depth + m.value.levels := by
  induction m using Match.children_induction generalizing depth with
  | step m ih =>
    rcases mem_preorder_iff_children.mp h with rfl | ⟨child, hchild, hq⟩
    · exact Nat.le_add_right _ _
    · have hdepth := ih child hchild hq
      have hlevels := Match.levels_lt_of_mem_children hchild
      omega

/-- As deep as the levels reach, there is a value to visit. -/
theorem Pending.exists_depth_of_levels (m : Match) (depth : Nat) :
    ∃ q ∈ preorder ⟨m, depth⟩, q.depth = depth + m.value.levels := by
  induction m using Match.children_induction generalizing depth with
  | step m ih =>
    cases hn : m.value.levels with
    | zero => exact ⟨⟨m, depth⟩, mem_preorder_iff_children.mpr (Or.inl rfl), rfl⟩
    | succ n =>
      obtain ⟨child, hchild, hlevels⟩ := Match.exists_child_of_levels hn
      obtain ⟨q, hq, hdepth⟩ := ih child hchild (depth + 1)
      refine ⟨q, mem_preorder_iff_children.mpr (Or.inr ⟨child, hchild, hq⟩), ?_⟩
      omega

/-- The second value is at most one level deeper than the first. -/
def Pending.Descends (p q : Pending) : Prop :=
  q.depth ≤ p.depth + 1

/-- So it is along the visits of several values behind one that lies no higher than their
parent, if it is along the visits of each of them. -/
theorem isChain_flatMap_preorder {starts : List Match}
    (h : ∀ start ∈ starts, (Pending.preorder ⟨start, depth + 1⟩).IsChain Pending.Descends)
    (p : Pending) (hp : depth ≤ p.depth) :
    (p :: (starts.map (⟨·, depth + 1⟩)).flatMap Pending.preorder).IsChain
      Pending.Descends := by
  induction starts generalizing p with
  | nil => exact List.isChain_singleton p
  | cons start rest ih =>
    rw [List.forall_mem_cons] at h
    rw [List.map_cons, List.flatMap_cons, ← List.cons_append]
    have hfirst : (p :: Pending.preorder ⟨start, depth + 1⟩).IsChain Pending.Descends := by
      refine List.isChain_cons.mpr ⟨fun q hq => ?_, h.1⟩
      rw [Pending.preorder_eq] at hq
      obtain rfl := Option.some.inj hq
      exact Nat.succ_le_succ hp
    -- whatever is visited last before the others lies no higher than their parent
    have hothers : ∀ q ∈ (p :: Pending.preorder ⟨start, depth + 1⟩),
        (q :: (rest.map (⟨·, depth + 1⟩)).flatMap Pending.preorder).IsChain
          Pending.Descends := by
      intro q hq
      refine ih h.2 q ?_
      rcases List.mem_cons.mp hq with rfl | hq
      · exact hp
      · obtain ⟨l, -, hdepth⟩ := Pending.location_of_mem_preorder hq
        omega
    have hrest := (List.isChain_cons.mp (hothers p (List.mem_cons_self ..))).2
    refine List.isChain_append.mpr ⟨hfirst, hrest, fun q hq r hr => ?_⟩
    exact (List.isChain_cons.mp (hothers q (List.mem_of_getLast? hq))).1 r hr

/-- **From one visit to the next, the depth rises by one at most.** -/
theorem Pending.isChain_preorder (m : Match) (depth : Nat) :
    (preorder ⟨m, depth⟩).IsChain Descends := by
  induction m using Match.children_induction generalizing depth with
  | step m ih =>
    rw [preorder_eq]
    exact isChain_flatMap_preorder (fun child hchild => ih child hchild _) _ (Nat.le_refl depth)

end DeepScan

/-! ## Subtrees -/

namespace Match

open DeepScan

/-- A match and everything below it in pre-order: a value before those within it, and those in
the order of their keys or indexes. -/
def subtree (m : Match) : List Match :=
  (Pending.preorder ⟨m, 0⟩).map Pending.target

/-- Everything below a match in pre-order. -/
def inside (m : Match) : List Match :=
  m.children.flatMap subtree

/-- The depth from which the visits are counted makes no difference to what is visited. -/
theorem map_target_preorder (m : Match) (depth : Nat) :
    (Pending.preorder ⟨m, depth⟩).map Pending.target = m.subtree := by
  induction m using Match.children_induction generalizing depth with
  | step m ih =>
    have hchildren : ∀ depth : Nat, (Pending.preorder ⟨m, depth⟩).map Pending.target =
        m :: m.children.flatMap subtree := by
      intro depth
      rw [Pending.preorder_eq, List.map_cons, List.flatMap_map, List.map_flatMap]
      exact congrArg (m :: ·) (List.flatMap_congr fun child hchild => ih child hchild _)
    rw [subtree, hchildren, hchildren]

theorem subtree_eq (m : Match) : m.subtree = m :: m.inside := by
  rw [subtree, Pending.preorder_eq, List.map_cons, List.flatMap_map, List.map_flatMap]
  exact congrArg (m :: ·) (List.flatMap_congr fun child _ => map_target_preorder child _)

/-! ## What is inside -/

variable {m found : Match}

/-- In a document without repeated keys, each way into the value of a match leads to one of the
matches of its subtree. -/
theorem mem_subtree_iff (hd : m.value.DistinctKeys) :
    found ∈ m.subtree ↔ ∃ l v, m.value.valueAt? l = some v ∧ found = ⟨m.location ++ l, v⟩ := by
  rw [subtree, List.mem_map]
  constructor
  · rintro ⟨p, hp, rfl⟩
    obtain ⟨l, v, hv, rfl⟩ := (Pending.mem_preorder_iff hd).mp hp
    exact ⟨l, v, hv, rfl⟩
  · rintro ⟨l, v, hv, rfl⟩
    exact ⟨_, (Pending.mem_preorder_iff hd).mpr ⟨l, v, hv, rfl⟩, rfl⟩

/-- What lies in the subtree of a match has a location that goes on from that of the match. -/
theorem location_of_mem_subtree (h : found ∈ m.subtree) : m.location <+: found.location := by
  obtain ⟨p, hp, rfl⟩ := List.mem_map.mp h
  obtain ⟨l, hl, -⟩ := Pending.location_of_mem_preorder hp
  exact ⟨l, hl.symm⟩

/-- No two of the matches have the same location. -/
def Distinct (found : List Match) : Prop :=
  (found.map location).Nodup

/-- Matches found from distinct starts are distinct, if they are from each of them and tell from
which start they come. -/
theorem Distinct.flatMap {starts : List Match} {search : Match → List Match}
    (h : Distinct starts) (hparts : ∀ start ∈ starts, Distinct (search start))
    (hstart : ∀ start ∈ starts, ∀ other ∈ starts, ∀ a ∈ search start, ∀ b ∈ search other,
      a.location = b.location → start.location = other.location) :
    Distinct (starts.flatMap search) := by
  rw [Distinct, List.map_flatMap, List.nodup_flatMap]
  refine ⟨hparts, (List.pairwise_map.mp h).imp_of_mem fun {start other} hmem hmem' hne =>
    List.disjoint_left.mpr fun l hl hl' => ?_⟩
  obtain ⟨a, ha, rfl⟩ := List.mem_map.mp hl
  obtain ⟨b, hb, hsame⟩ := List.mem_map.mp hl'
  exact hne (hstart start hmem other hmem' a ha b hb hsame.symm)

/-- So it is if the starts lie on one level and what is found lies below its start. -/
theorem Distinct.flatMap_below {starts : List Match} {search : Match → List Match} {level : Nat}
    (h : Distinct starts) (hlevel : ∀ start ∈ starts, start.location.length = level)
    (hparts : ∀ start ∈ starts, Distinct (search start))
    (hbelow : ∀ start ∈ starts, ∀ a ∈ search start, start.location <+: a.location) :
    Distinct (starts.flatMap search) := by
  refine h.flatMap hparts fun start hmem other hmem' a ha b hb hsame => ?_
  have hstart := hbelow start hmem a ha
  have hother := hsame ▸ hbelow other hmem' b hb
  have hlength : start.location.length = other.location.length :=
    (hlevel start hmem).trans (hlevel other hmem').symm
  exact (List.prefix_of_prefix_length_le hstart hother (Nat.le_of_eq hlength)).eq_of_length hlength

theorem below_location_inj {a b : Accessor} :
    m.location ++ [a] = m.location ++ [b] ↔ a = b := by
  rw [List.append_cancel_left_eq, List.cons.injEq, and_iff_left rfl]

theorem distinct_children (hd : m.value.DistinctKeys) : Distinct m.children := by
  unfold children
  cases hv : m.value with
  | object members =>
    rw [hv] at hd
    have hkeys := (Json.distinctKeys_object.mp hd).1
    have hinjective : Function.Injective fun key : String => m.location ++ [Accessor.key key] :=
      fun key key' h => Accessor.key.inj (below_location_inj.mp h)
    have hlocations := hkeys.map hinjective
    rw [List.map_map] at hlocations
    rwa [Distinct, List.map_map]
  | array items =>
    rw [Distinct, List.Nodup, List.pairwise_map, List.pairwise_iff_getElem]
    intro i j _ _ hij hsame
    rw [List.getElem_mapIdx, List.getElem_mapIdx] at hsame
    exact Nat.ne_of_lt hij (Accessor.index.inj (below_location_inj.mp hsame))
  | _ => exact List.nodup_nil

/-- **Nothing is visited twice.** -/
theorem distinct_subtree (hd : m.value.DistinctKeys) : Distinct m.subtree := by
  induction m using children_induction with
  | step m ih =>
    have hchild : ∀ child ∈ m.children, child.value.DistinctKeys := by
      intro child hchild
      obtain ⟨a, v, hv, rfl⟩ := (mem_children_iff hd).mp hchild
      exact hd.of_get? hv
    have hlevel : ∀ child ∈ m.children, child.location.length = m.location.length + 1 :=
      fun child => length_of_mem_children
    have hinside : Distinct m.inside := by
      refine (distinct_children hd).flatMap_below hlevel (fun child hmem => ?_)
        fun child _ a ha => ?_
      · exact ih child hmem (hchild child hmem)
      · exact location_of_mem_subtree ha
    rw [subtree_eq, Distinct, List.map_cons, List.nodup_cons]
    refine ⟨fun hself => ?_, hinside⟩
    -- everything inside lies further down than the match itself
    obtain ⟨a, ha, hsame⟩ := List.mem_map.mp hself
    obtain ⟨child, hmem, ha⟩ := List.mem_flatMap.mp ha
    have hlength := (location_of_mem_subtree ha).length_le
    rw [hsame, hlevel child hmem] at hlength
    omega

/-! ## Deep scans -/

variable {limit : Nat} {includeSelf : Bool}

/-- Below the limit, a deep scan returns everything below the match. -/
theorem descendants_of_levels_le (h : m.value.levels ≤ limit) :
    m.descendants limit includeSelf =
      .ok ((if includeSelf then [m] else []) ++ m.inside) := by
  have hshallow : ((Pending.preorder ⟨m, 0⟩).find? fun p => decide (limit < p.depth)) = none := by
    rw [List.find?_eq_none]
    intro p hp
    have hdepth := Pending.depth_le_of_mem_preorder hp
    simp only [decide_eq_true_eq]
    omega
  rw [descendants_eq, hshallow]
  refine congrArg Except.ok ?_
  rw [Pending.preorder_eq, List.filter_cons, List.flatMap_map]
  -- only the match itself is visited at depth zero
  have hbelow : ((m.children.flatMap fun child => Pending.preorder ⟨child, 0 + 1⟩).filter
      fun p => includeSelf || decide (0 < p.depth)) =
      m.children.flatMap fun child => Pending.preorder ⟨child, 0 + 1⟩ := by
    rw [List.filter_eq_self]
    intro p hp
    obtain ⟨child, -, hp⟩ := List.mem_flatMap.mp hp
    obtain ⟨l, -, hdepth⟩ := Pending.location_of_mem_preorder hp
    have hpos : 0 < p.depth := by omega
    simp [hpos]
  have htargets : ((m.children.flatMap fun child => Pending.preorder ⟨child, 0 + 1⟩).map
      Pending.target) = m.inside := by
    rw [List.map_flatMap]
    exact List.flatMap_congr fun child _ => map_target_preorder child _
  rw [hbelow]
  cases includeSelf <;> simp [htargets]

/-- Beyond the limit, it names the first match of the list that lies one level too deep. -/
theorem exists_descendants_of_lt_levels (h : limit < m.value.levels) :
    ∃ before first after, m.subtree = before ++ first :: after ∧
      (∀ found ∈ before, found.location.length ≤ m.location.length + limit) ∧
      first.location.length = m.location.length + (limit + 1) ∧
      m.descendants limit includeSelf = .error (.tooDeep limit first.location) := by
  obtain ⟨q, hq, hdeepest⟩ := Pending.exists_depth_of_levels m 0
  obtain ⟨p, hp⟩ : ∃ p, ((Pending.preorder ⟨m, 0⟩).find? fun p => decide (limit < p.depth)) =
      some p := by
    rw [← Option.isSome_iff_exists, List.find?_isSome]
    exact ⟨q, hq, by simp only [decide_eq_true_eq]; omega⟩
  obtain ⟨hdeep, before, after, hlist, hbefore⟩ := List.find?_eq_some_iff_append.mp hp
  have hlocation : ∀ r ∈ Pending.preorder ⟨m, 0⟩,
      r.target.location.length = m.location.length + r.depth := by
    intro r hr
    obtain ⟨l, hl, hdepth⟩ := Pending.location_of_mem_preorder hr
    rw [hl, List.length_append, hdepth, Nat.zero_add]
  have hshallow : ∀ r ∈ before, r.depth ≤ limit := fun r hr => by simpa using hbefore r hr
  -- the visit just before is within the limit, and the depth rises by one at most
  have hrise : p.depth ≤ limit + 1 := by
    have hchain := Pending.isChain_preorder m 0
    rw [hlist] at hchain
    rcases List.eq_nil_or_concat before with rfl | ⟨front, r, rfl⟩
    · rw [Pending.preorder_eq] at hlist
      obtain rfl : ⟨m, 0⟩ = p := (List.cons.inj hlist).1
      exact Nat.zero_le _
    · rw [List.concat_eq_append, List.append_assoc, List.singleton_append,
        List.isChain_append_cons_cons] at hchain
      have hr := hshallow r (by simp)
      exact Nat.le_trans hchain.2.1 (Nat.succ_le_succ hr)
  refine ⟨before.map Pending.target, p.target, after.map Pending.target, ?_, ?_, ?_, ?_⟩
  · rw [subtree, hlist, List.map_append, List.map_cons]
  · intro found hfound
    obtain ⟨r, hr, rfl⟩ := List.mem_map.mp hfound
    have hlength := hlocation r (hlist ▸ List.mem_append_left _ hr)
    have hdepth := hshallow r hr
    omega
  · have hlength := hlocation p (hlist ▸ List.mem_append_right _ (List.mem_cons_self ..))
    simp only [decide_eq_true_eq] at hdeep
    omega
  · rw [descendants_eq, hp]

/-- What a deep scan returns is taken from the subtree of its start, in the same order. -/
theorem sublist_of_descendants {all : List Match}
    (h : m.descendants limit includeSelf = .ok all) : all.Sublist m.subtree := by
  rcases Nat.lt_or_ge limit m.value.levels with hlevels | hlevels
  · obtain ⟨_, first, _, _, _, _, hfail⟩ := exists_descendants_of_lt_levels hlevels
    cases h.symm.trans hfail
  · rw [descendants_of_levels_le hlevels, Except.ok.injEq] at h
    rw [← h, subtree_eq]
    cases includeSelf with
    | true => exact List.Sublist.refl _
    | false => exact List.sublist_cons_self m _

/-- **A deep scan is the pre-order traversal, up to a bound on the depth.**  If the value of a
match has no more levels than the limit, a deep scan returns everything below the match in
pre-order, behind the match itself if that is to be included.  Otherwise it fails with the
location of the first match in pre-order that lies one level below the limit.  In a document
without repeated keys, each way into the value leads to one match of the traversal, and no two
matches have the same location.  The loop ends, after no more turns than there are values. -/
theorem descendants_preorder (limit : Nat) (includeSelf : Bool) (m : Match) :
    (m.value.levels ≤ limit → m.descendants limit includeSelf =
      .ok ((if includeSelf then [m] else []) ++ m.inside)) ∧
    (limit < m.value.levels → ∃ before first after, m :: m.inside = before ++ first :: after ∧
      (∀ found ∈ before, found.location.length ≤ m.location.length + limit) ∧
      first.location.length = m.location.length + (limit + 1) ∧
      m.descendants limit includeSelf = .error (.tooDeep limit first.location)) ∧
    (m.value.DistinctKeys → Distinct (m :: m.inside) ∧ ∀ found, found ∈ m :: m.inside ↔
      ∃ l v, m.value.valueAt? l = some v ∧ found = ⟨m.location ++ l, v⟩) ∧
    ∃ turns ≤ m.value.size, Turns limit [] [⟨m, 0⟩] turns (visit limit [] [⟨m, 0⟩]) := by
  refine ⟨descendants_of_levels_le, fun h => ?_, fun hd => ?_, ?_⟩
  · rw [← subtree_eq]
    exact exists_descendants_of_lt_levels h
  · rw [← subtree_eq]
    exact ⟨distinct_subtree hd, fun found => mem_subtree_iff hd⟩
  · obtain ⟨turns, hturns, hrun⟩ := exists_turns limit [] [⟨m, 0⟩]
    exact ⟨turns, hturns, hrun⟩

end Match
end PathQuery
