import Mathlib.Data.List.Perm.Basic
import PathQuery.Proofs.Query.BracketSpelling
import PathQuery.Proofs.Query.Traversal

/-! # Deep scans with a key, bare and in brackets

A deep scan for a bare key keeps of what it visits below each match what ends with the key.
With the key in brackets, it goes from the match and from everything below to the children
of that key.  Everything below a match is a child of one match of its subtree, so both find
the same (`Match.filter_inside_perm`), but in another order: the first one as it is visited,
the second one parent by parent (`Path.query_scan_spelling`).
-/

namespace PathQuery

/-- What a test for a key looks at is the last step of a location. -/
def KeyTest.accepts : KeyTest → Match → Bool
  | .name key, m => m.endsWithKey key
  | .any, _ => true

namespace Match

/-! ## By visits and by parents -/

/-- Everything below a match is a child of something in its subtree, and of one thing only. -/
theorem filter_inside_perm (P : Match → Bool) (m : Match) :
    (m.inside.filter P).Perm (m.subtree.flatMap fun parent => parent.children.filter P) := by
  induction m using children_induction with
  | step m ih =>
    have hsplit : m.inside.filter P = m.children.flatMap fun child =>
        [child].filter P ++ child.inside.filter P := by
      rw [inside, List.filter_flatMap]
      refine List.flatMap_congr fun child _ => ?_
      rw [subtree_eq, ← List.singleton_append, List.filter_append]
    have hself : (m.children.flatMap fun child => [child].filter P) = m.children.filter P := by
      rw [← List.filter_flatMap, List.flatMap_singleton']
    have hbelow : (m.children.flatMap fun child => child.inside.filter P).Perm
        (m.inside.flatMap fun parent => parent.children.filter P) := by
      rw [inside, List.flatMap_assoc]
      exact List.Perm.flatMap_left _ ih
    rw [hsplit, subtree_eq, List.flatMap_cons]
    refine (List.flatMap_append_perm _ _ _).symm.trans ?_
    rw [hself]
    exact hbelow.append_left _

theorem endsWithKey_below_key (m : Match) (name key : String) (v : Json) :
    (m.below (.key name) v).endsWithKey key = (name == key) := by
  rw [endsWithKey, below, List.getLast?_concat]
  exact Bool.eq_iff_iff.mpr (by simp)

theorem endsWithKey_below_index (m : Match) (i : Nat) (key : String) (v : Json) :
    (m.below (.index i) v).endsWithKey key = false := by
  rw [endsWithKey, below, List.getLast?_concat]
  rfl

theorem filter_members (m : Match) (key : String) {members : List (String × Json)}
    (hkeys : (members.map Prod.fst).Nodup) :
    ((members.map fun (name, v) => m.below (.key name) v).filter fun child =>
      child.endsWithKey key) = ((Json.lookup key members).map (m.below (.key key))).toList := by
  induction members with
  | nil => rfl
  | cons p rest ih =>
    obtain ⟨name, v⟩ := p
    rw [List.map_cons, List.nodup_cons] at hkeys
    rw [List.map_cons, List.filter_cons, endsWithKey_below_key, ih hkeys.2, Json.lookup]
    by_cases hname : name = key
    · subst hname
      -- the other members have other keys
      have hrest : Json.lookup name rest = none := by
        refine Option.eq_none_iff_forall_ne_some.mpr fun w hw => ?_
        exact hkeys.1 (List.mem_map.mpr ⟨(name, w), Json.mem_of_lookup hw, rfl⟩)
      simp [hrest]
    · simp [hname]

/-- The children that end with a key are the one behind that key. -/
theorem filter_endsWithKey {m : Match} (hd : m.value.DistinctKeys) (key : String) :
    (m.children.filter fun child => child.endsWithKey key) = (m.childByKey? key).toList := by
  unfold children childByKey?
  cases hv : m.value with
  | object members =>
    rw [hv] at hd
    exact m.filter_members key (Json.distinctKeys_object.mp hd).1
  | array items =>
    rw [List.filter_eq_nil_iff.mpr]
    · rfl
    · intro child hchild
      obtain ⟨i, _, rfl⟩ := List.mem_mapIdx.mp hchild
      rw [endsWithKey_below_index]
      exact Bool.false_ne_true
  | _ => rfl

theorem select_selector {m : Match} (hd : m.value.DistinctKeys) (key : KeyTest) :
    m.select key.selector = m.children.filter key.accepts := by
  cases key with
  | any => exact (List.filter_eq_self.mpr fun _ _ => rfl).symm
  | name key => exact (filter_endsWithKey hd key).symm

/-- **Inside a match, what passes the test for a key is what is selected by it**, parent by
parent. -/
theorem filter_accepts_perm {m : Match} (hd : m.value.DistinctKeys) (key : KeyTest) :
    (m.inside.filter key.accepts).Perm
      (m.subtree.flatMap fun parent => parent.select key.selector) := by
  have hselect : (m.subtree.flatMap fun parent => parent.select key.selector) =
      m.subtree.flatMap fun parent => parent.children.filter key.accepts := by
    refine List.flatMap_congr fun parent hparent => select_selector ?_ key
    obtain ⟨l, v, hv, rfl⟩ := (mem_subtree_iff hd).mp hparent
    exact hd.of_valueAt? hv
  rw [hselect]
  exact m.filter_inside_perm key.accepts

/-- What a deep scan keeps makes no difference to whether it fails, and how. -/
theorem descendants_agree (limit : Nat) (first second : Bool) (keep : List Match → List Match)
    (m : Match) : Agree (fun _ => False) (fun _ _ => True)
      (m.descendants limit first) ((m.descendants limit second).map keep) := by
  unfold descendants
  cases DeepScan.visit limit [] [⟨m, 0⟩] with
  | error e => exact .error e
  | ok visited => exact .ok trivial

end Match

/-! ## Deep scans from several matches -/

section
variable {limit : Nat} {names : Names} {starts : List Match}

/-- A deep scan for a key keeps some of what it visits, whatever the test is. -/
theorem Head.go_descend_some (key : KeyTest) (segmented : Bool) :
    Head.go limit names segmented (.descend (some key)) starts =
      gather (fun m => (m.descendants limit false).map (List.filter key.accepts)) starts := by
  cases key with
  | name key => rfl
  | any =>
    have hall : (fun m : Match => (m.descendants limit false).map
        (List.filter KeyTest.any.accepts)) = Match.descendants limit false := by
      funext m
      have hid : List.filter KeyTest.any.accepts = id :=
        funext fun found => List.filter_eq_self.mpr fun _ _ => rfl
      rw [hid]
      cases m.descendants limit false <;> rfl
    rw [hall]
    rfl

/-- A deep scan from several matches fails if values are nested too deep below one of them,
and in the same way whatever it keeps. -/
theorem gather_descendants_of_lt_levels (first second : Bool) (keep : List Match → List Match)
    (h : ∃ m ∈ starts, limit < m.value.levels) :
    ∃ l, gather (Match.descendants limit first) starts = .error (.tooDeep limit l) ∧
      gather (fun m => (m.descendants limit second).map keep) starts =
        .error (.tooDeep limit l) := by
  obtain ⟨m, hm, hlevels⟩ := h
  obtain ⟨e, he⟩ : ∃ e, gather (Match.descendants limit first) starts = .error e := by
    obtain ⟨_, deep, _, _, _, _, hdeep⟩ := Match.exists_descendants_of_lt_levels hlevels
    exact gather_isError_iff.mpr ⟨m, hm, _, hdeep⟩
  -- the error is that of one of the scans, which meets values nested too deep
  obtain ⟨l, rfl⟩ : ∃ l, e = .tooDeep limit l := by
    obtain ⟨m, -, hm⟩ := exists_of_gather_eq_error he
    rcases Nat.lt_or_ge limit m.value.levels with hlevels | hlevels
    · obtain ⟨_, deep, _, _, _, _, hdeep⟩ := Match.exists_descendants_of_lt_levels hlevels
      exact ⟨deep.location, Except.error.inj (hm.symm.trans hdeep)⟩
    · rw [Match.descendants_of_levels_le hlevels] at hm
      cases hm
  have hparts := Agree.mapM (S := fun _ _ => True) (List.forall₂_same.mpr
    fun (m : Match) (_ : m ∈ starts) => m.descendants_agree limit first second keep)
  have hagree := hparts.map (f := List.flatten) (g := List.flatten) (S := fun _ _ => True)
    fun _ _ _ => trivial
  exact ⟨l, he, hagree.eq_error he not_false⟩

/-- Below the limit, it finds what it keeps for each of them. -/
theorem gather_descendants_of_levels_le (includeSelf : Bool) (keep : List Match → List Match)
    (h : ∀ m ∈ starts, m.value.levels ≤ limit) :
    gather (fun m => (m.descendants limit includeSelf).map keep) starts =
      .ok (starts.flatMap fun m => keep ((if includeSelf then [m] else []) ++ m.inside)) := by
  refine gather_eq_flatMap fun m hm => ?_
  rw [Match.descendants_of_levels_le (h m hm)]
  rfl

end

/-! ## The two spellings -/

namespace Path

/-- A last step of a path goes on from what the path before it finds. -/
theorem query_concat (options : Options) (origin : Origin) (segments : List Segment)
    (steps : List Step) (head : Head) (inner : List Segment) (source source' : String)
    (doc : Json) :
    query options (.mk origin segments (steps ++ [.mk head inner]) source') doc =
      (query options (.mk origin segments steps source) doc >>= fun reached =>
        head.go options.maxDepth .strict (!inner.isEmpty) reached >>=
          Segment.through options.maxDepth doc inner) := by
  rw [query_mk, query_mk, bind_assoc]
  exact congrArg _ (funext fun found => Step.through_concat steps head inner found)

/-- A deep scan for a key scans from every match before it, and keeps what passes the test. -/
theorem query_descend_some (options : Options) (origin : Origin) (segments : List Segment)
    (steps : List Step) (source source' : String) (key : KeyTest) (doc : Json) :
    query options (.mk origin segments (steps ++ [.mk (.descend (some key)) []]) source') doc =
      query options (.mk origin segments steps source) doc >>= gather fun m =>
        (m.descendants options.maxDepth false).map (List.filter key.accepts) := by
  refine (query_concat options origin segments steps _ [] source source' doc).trans ?_
  refine congrArg _ (funext fun reached => ?_)
  rw [Head.go_descend_some]
  exact bind_pure _

/-- A nameless deep scan visits every match before it as well, and then each of its selectors is
taken there. -/
theorem query_descend_none (options : Options) (origin : Origin) (segments : List Segment)
    (steps : List Step) (source source' : String) (selectors : List Selector) (doc : Json) :
    query options (.mk origin segments (steps ++ [.mk (.descend none) [.mk selectors]]) source')
        doc =
      query options (.mk origin segments steps source) doc >>= fun reached =>
        gather (Match.descendants options.maxDepth true) reached >>=
          gather (Selector.union options.maxDepth doc selectors) := by
  refine (query_concat options origin segments steps _ _ source source' doc).trans ?_
  refine congrArg _ (funext fun reached => ?_)
  exact congrArg _ (funext (Segment.through_singleton _))

/-- **Named and bracketed deep scans select the same.**  Behind any path, a deep scan for a key
and a nameless deep scan with the key in brackets both fail, in the same way, if the path
does or if values below one of its matches are nested beyond the limit.  Otherwise both
succeed: the first one finds what ends with the key inside each match, in the order of the
visits; the second one finds the children of that key parent by parent; and the one list is
a permutation of the other.  So it is for the wildcard in place of a key. -/
theorem query_scan_spelling (options : Options) (origin : Origin) (segments : List Segment)
    (steps : List Step) (source source' source'' : String) (key : KeyTest) {doc : Json}
    (hd : doc.DistinctKeys) :
    let before := query options (.mk origin segments steps source) doc
    let bare := query options
      (.mk origin segments (steps ++ [.mk (.descend (some key)) []]) source') doc
    let bracketed := query options
      (.mk origin segments (steps ++ [.mk (.descend none) [.mk [key.selector]]]) source'') doc
    (∀ e, before = .error e → bare = .error e ∧ bracketed = .error e) ∧
    ∀ starts, before = .ok starts →
      ((∃ m ∈ starts, options.maxDepth < m.value.levels) →
        ∃ l, bare = .error (.tooDeep options.maxDepth l) ∧
          bracketed = .error (.tooDeep options.maxDepth l)) ∧
      ((∀ m ∈ starts, m.value.levels ≤ options.maxDepth) →
        ∃ visited grouped, bare = .ok visited ∧ bracketed = .ok grouped ∧
          visited = starts.flatMap (fun m => m.inside.filter key.accepts) ∧
          grouped = (starts.flatMap fun m => m.subtree.flatMap fun parent =>
            parent.select key.selector) ∧
          visited.Perm grouped) := by
  intro before bare bracketed
  have hbare : bare = before >>= _ :=
    query_descend_some options origin segments steps source source' key doc
  have hbracketed : bracketed = before >>= _ :=
    query_descend_none options origin segments steps source source'' [key.selector] doc
  refine ⟨fun e he => ?_, fun starts hstarts => ⟨fun hdeep => ?_, fun hshallow => ?_⟩⟩
  · rw [hbare, hbracketed, he]
    exact ⟨rfl, rfl⟩
  · obtain ⟨l, hfirst, hsecond⟩ := gather_descendants_of_lt_levels true false
      (List.filter key.accepts) hdeep
    refine ⟨l, ?_, ?_⟩
    · rw [hbare, hstarts]
      exact hsecond
    · rw [hbracketed, hstarts]
      exact bind_eq_error.mpr (Or.inr ⟨starts, rfl, bind_eq_error.mpr (Or.inl hfirst)⟩)
  · have hscan : gather (Match.descendants options.maxDepth true) starts =
        .ok (starts.flatMap Match.subtree) := by
      refine gather_eq_flatMap fun m hm => ?_
      rw [Match.descendants_of_levels_le (hshallow m hm), Match.subtree_eq]
      rfl
    refine ⟨_, _, ?_, ?_, rfl, rfl, List.Perm.flatMap_left _ fun m hm => ?_⟩
    · rw [hbare, hstarts]
      exact gather_descendants_of_levels_le false _ hshallow
    · rw [hbracketed, hstarts]
      refine bind_eq_ok.mpr ⟨starts, rfl, bind_eq_ok.mpr ⟨_, hscan, ?_⟩⟩
      rw [gather_eq_flatMap fun m _ => key.union_selector m, List.flatMap_assoc]
    · exact Match.filter_accepts_perm (hd.of_valueAt? (query_located hd hstarts m hm)) key

/-- Below an object with the keys `b` and `a`, in this order, and `a` again within `b`, the scan
for `a` meets the inner one first, and the other spelling finds the outer one first. -/
theorem query_scan_spelling_orders :
    let doc := Json.object [("b", .object [("a", .null)]), ("a", .null)]
    doc.DistinctKeys ∧ ∃ visited grouped,
      query {} (.mk .root [] [.mk (.descend (some (.name "a"))) []] "$..a") doc = .ok visited ∧
      query {} (.mk .root [] [.mk (.descend none) [.mk [.name "a"]]] "$..['a']") doc =
        .ok grouped ∧
      visited.map Match.location = [[.key "b", .key "a"], [.key "a"]] ∧
      grouped.map Match.location = [[.key "a"], [.key "b", .key "a"]] ∧
      visited.Perm grouped := by
  intro doc
  have hd : doc.DistinctKeys := by simp [doc, Json.DistinctKeys, Json.MembersDistinctKeys]
  have hstart : query {} (.mk .root [] [] "$") doc = .ok [⟨[], doc⟩] := by
    rw [query_mk, Segment.through_nil, funext Step.through_nil]
    rfl
  have hspelling := query_scan_spelling {} .root [] [] "$" "$..a" "$..['a']" (.name "a") hd
  obtain ⟨visited, grouped, hbare, hbracketed, rfl, rfl, hperm⟩ :=
    (hspelling.2 _ hstart).2 fun m hm => List.mem_singleton.mp hm ▸ by decide
  exact ⟨hd, _, _, hbare, hbracketed, by decide +kernel, by decide +kernel, hperm⟩

end Path
end PathQuery
