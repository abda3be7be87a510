import Mathlib.Data.List.Forall2
import PathQuery.Query.Match

/-! # Computations that may fail

When a computation that may fail has a result, each of its parts had one; when it
fails, one of its parts failed in the same way.
-/

namespace PathQuery

variable {ε α β : Type}

theorem bind_eq_ok {x : Except ε α} {f : α → Except ε β} {b : β} :
    x >>= f = .ok b ↔ ∃ a, x = .ok a ∧ f a = .ok b := by
  cases x with
  | error e => simp [bind, Except.bind]
  | ok a => simp [bind, Except.bind]

theorem map_eq_ok {x : Except ε α} {f : α → β} {b : β} :
    x.map f = .ok b ↔ ∃ a, x = .ok a ∧ f a = b := by
  cases x with
  | error e => simp [Except.map]
  | ok a => simp [Except.map]

theorem fmap_eq_ok {x : Except ε α} {f : α → β} {b : β} :
    f <$> x = .ok b ↔ ∃ a, x = .ok a ∧ f a = b :=
  map_eq_ok

theorem bind_eq_error {x : Except ε α} {f : α → Except ε β} {e : ε} :
    x >>= f = .error e ↔ x = .error e ∨ ∃ a, x = .ok a ∧ f a = .error e := by
  cases x with
  | error e' => simp [bind, Except.bind]
  | ok a => simp [bind, Except.bind]

theorem map_eq_error {x : Except ε α} {f : α → β} {e : ε} :
    x.map f = .error e ↔ x = .error e := by
  cases x with
  | error e' => simp [Except.map]
  | ok a => simp [Except.map]

theorem mapM_eq_ok {f : α → Except ε β} {xs : List α} {ys : List β} :
    xs.mapM f = .ok ys ↔ List.Forall₂ (fun x y => f x = .ok y) xs ys := by
  induction xs generalizing ys with
  | nil =>
    rw [List.mapM_nil, List.forall₂_nil_left_iff]
    exact ⟨fun h => (Except.ok.inj h).symm, fun h => h ▸ rfl⟩
  | cons x xs ih =>
    simp only [List.mapM_cons, bind_eq_ok, ih, List.forall₂_cons_left_iff]
    constructor
    · rintro ⟨y, hy, ys', hys, h⟩
      exact ⟨y, ys', hy, hys, (Except.ok.inj h).symm⟩
    · rintro ⟨y, ys', hy, hys, rfl⟩
      exact ⟨y, hy, ys', hys, rfl⟩

/-- A function that gives a known result for each member gives these results for a list. -/
theorem mapM_eq_ok_map {γ δ : Type} {g : α → Except ε β} {xs : List α} {zs : List δ}
    {t : α → γ} {u : δ → γ} {v : δ → β} (h : xs.map t = zs.map u)
    (hg : ∀ x, ∀ z ∈ zs, t x = u z → g x = .ok (v z)) : xs.mapM g = .ok (zs.map v) := by
  induction zs generalizing xs with
  | nil =>
    obtain rfl : xs = [] := by simpa using h
    rfl
  | cons z zs ih =>
    obtain ⟨x, rest, rfl, hx, hrest⟩ := List.map_eq_cons_iff.mp h
    have htail := ih hrest fun x z hz => hg x z (List.mem_cons_of_mem _ hz)
    rw [List.mapM_cons, hg x z (List.mem_cons_self ..) hx, htail]
    rfl

/-- A list of images is the image of a list. -/
theorem exists_eq_map {g : α → β} {xs : List β} (h : ∀ x ∈ xs, ∃ y, x = g y) :
    ∃ ys : List α, xs = ys.map g := by
  induction xs with
  | nil => exact ⟨[], rfl⟩
  | cons x xs ih =>
    obtain ⟨⟨y, rfl⟩, hrest⟩ := List.forall_mem_cons.mp h
    obtain ⟨ys, rfl⟩ := ih hrest
    exact ⟨y :: ys, rfl⟩

theorem exists_left_of_forall₂ {R : α → β → Prop} {as : List α} {bs : List β}
    (h : List.Forall₂ R as bs) {b : β} (hb : b ∈ bs) : ∃ a ∈ as, R a b := by
  induction h with
  | nil => simp at hb
  | cons hab _ ih =>
    rcases List.mem_cons.mp hb with rfl | hb
    · exact ⟨_, List.mem_cons_self .., hab⟩
    · obtain ⟨a, ha, hab⟩ := ih hb
      exact ⟨a, List.mem_cons_of_mem _ ha, hab⟩

/-- A computation whose result is seen to be of some form has a result of that form. -/
theorem exists_of_any {x : Except ε α} {P : α → Bool} (h : x.toOption.any P = true) :
    ∃ a, x = .ok a ∧ P a = true := by
  cases x with
  | error e => simp [Except.toOption] at h
  | ok a => exact ⟨a, rfl, by simpa [Except.toOption] using h⟩

/-- What is found in a whole list is found for one of its members. -/
theorem exists_of_mem_mapM {f : α → Except ε β} {xs : List α} {ys : List β}
    (h : xs.mapM f = .ok ys) {y : β} (hy : y ∈ ys) : ∃ x ∈ xs, f x = .ok y := by
  have hall := mapM_eq_ok.mp h
  clear h
  induction hall with
  | nil => simp at hy
  | cons hx _ ih =>
    rcases List.mem_cons.mp hy with rfl | hy
    · exact ⟨_, List.mem_cons_self .., hx⟩
    · obtain ⟨x, hmem, hx⟩ := ih hy
      exact ⟨x, List.mem_cons_of_mem _ hmem, hx⟩

theorem exists_of_mapM_eq_error {f : α → Except ε β} {xs : List α} {e : ε}
    (h : xs.mapM f = .error e) : ∃ x ∈ xs, f x = .error e := by
  induction xs with
  | nil => cases h
  | cons x xs ih =>
    rw [List.mapM_cons, bind_eq_error] at h
    rcases h with h | ⟨y, _, h⟩
    · exact ⟨x, List.mem_cons_self .., h⟩
    · rcases bind_eq_error.mp h with h | ⟨ys, _, h⟩
      · obtain ⟨x', hmem, hx'⟩ := ih h
        exact ⟨x', List.mem_cons_of_mem _ hmem, hx'⟩
      · cases h

/-- What a gathering search finds, it finds from one of its starts. -/
theorem mem_of_gather {search : α → Except ε (List β)} {starts : List α} {found : List β}
    (h : gather search starts = .ok found) {b : β} (hb : b ∈ found) :
    ∃ a ∈ starts, ∃ part, search a = .ok part ∧ b ∈ part := by
  obtain ⟨parts, hparts, rfl⟩ := map_eq_ok.mp h
  obtain ⟨part, hpart, hb⟩ := List.mem_flatten.mp hb
  obtain ⟨a, ha, hsearch⟩ := exists_of_mem_mapM hparts hpart
  exact ⟨a, ha, part, hsearch, hb⟩

theorem isError_or_isOk (x : Except ε α) : (∃ e, x = .error e) ∨ ∃ a, x = .ok a := by
  cases x with
  | error e => exact Or.inl ⟨e, rfl⟩
  | ok a => exact Or.inr ⟨a, rfl⟩

/-- A gathering search finds what its searches find. -/
theorem mem_gather_iff {search : α → Except ε (List β)} {starts : List α} {found : List β}
    (h : gather search starts = .ok found) {b : β} :
    b ∈ found ↔ ∃ a ∈ starts, ∃ part, search a = .ok part ∧ b ∈ part := by
  refine ⟨mem_of_gather h, ?_⟩
  rintro ⟨a, ha, part, hpart, hb⟩
  obtain ⟨parts, hparts, rfl⟩ := map_eq_ok.mp h
  refine List.mem_flatten.mpr ⟨part, ?_, hb⟩
  have hall := mapM_eq_ok.mp hparts
  clear h hparts
  induction hall with
  | nil => simp at ha
  | cons hx _ ih =>
    rcases List.mem_cons.mp ha with rfl | ha
    · exact Except.ok.inj (hx.symm.trans hpart) ▸ List.mem_cons_self ..
    · exact List.mem_cons_of_mem _ (ih ha)

/-- A gathering search fails where one of its searches fails. -/
theorem exists_of_gather_eq_error {search : α → Except ε (List β)} {starts : List α} {e : ε}
    (h : gather search starts = .error e) : ∃ a ∈ starts, search a = .error e :=
  exists_of_mapM_eq_error (map_eq_error.mp h)

/-- A gathering search fails exactly if one of its searches does. -/
theorem gather_isError_iff {search : α → Except ε (List β)} {starts : List α} :
    (∃ e, gather search starts = .error e) ↔ ∃ a ∈ starts, ∃ e, search a = .error e := by
  constructor
  · rintro ⟨e, h⟩
    obtain ⟨a, ha, hsearch⟩ := exists_of_gather_eq_error h
    exact ⟨a, ha, e, hsearch⟩
  · rintro ⟨a, ha, e, hsearch⟩
    refine (isError_or_isOk _).resolve_right ?_
    rintro ⟨found, h⟩
    obtain ⟨parts, hparts, -⟩ := map_eq_ok.mp h
    have hall := mapM_eq_ok.mp hparts
    clear h hparts
    -- the list of parts has one for every start, also for the one whose search fails
    induction hall with
    | nil => simp at ha
    | cons hx _ ih =>
      rcases List.mem_cons.mp ha with rfl | ha
      · simp [hx] at hsearch
      · exact ih ha

/-- A gathering search that succeeds has succeeded from each of its starts. -/
theorem exists_of_gather_eq_ok {search : α → Except ε (List β)} {starts : List α}
    {found : List β} (h : gather search starts = .ok found) {a : α} (ha : a ∈ starts) :
    ∃ part, search a = .ok part ∧ part ⊆ found := by
  rcases isError_or_isOk (search a) with hfail | ⟨part, hpart⟩
  · obtain ⟨e, he⟩ := gather_isError_iff.mpr ⟨a, ha, hfail⟩
    simp [h] at he
  · exact ⟨part, hpart, fun b hb => (mem_gather_iff h).mpr ⟨a, ha, part, hpart, hb⟩⟩

theorem eq_ok_nil_of_gather {search : α → Except ε (List β)} {starts : List α}
    (h : gather search starts = .ok []) : ∀ a ∈ starts, search a = .ok [] := by
  intro a ha
  obtain ⟨part, hpart, hsub⟩ := exists_of_gather_eq_ok h ha
  rw [hpart, List.subset_nil.mp hsub]

theorem gather_eq_flatMap {search : α → Except ε (List β)} {starts : List α}
    {f : α → List β} (h : ∀ a ∈ starts, search a = .ok (f a)) :
    gather search starts = .ok (starts.flatMap f) := by
  have hparts : starts.mapM search = .ok (starts.map f) := by
    rw [mapM_eq_ok, List.forall₂_map_right_iff, List.forall₂_same]
    exact h
  rw [gather, hparts]
  rfl

/-- A gathering search that succeeds lines up what a function finds from its starts. -/
theorem exists_flatMap_of_gather {search : α → Except ε (List β)} {starts : List α}
    {found : List β} (h : gather search starts = .ok found) :
    ∃ f, (∀ a ∈ starts, search a = .ok (f a)) ∧ found = starts.flatMap f := by
  have hparts : ∀ a ∈ starts, search a = .ok ((search a).toOption.getD []) := by
    intro a ha
    obtain ⟨part, hpart, -⟩ := exists_of_gather_eq_ok h ha
    rw [hpart]
    rfl
  exact ⟨_, hparts, Except.ok.inj (h.symm.trans (gather_eq_flatMap hparts))⟩

theorem gather_eq_map {search : α → Except ε (List β)} {starts : List α}
    {f : α → β} (h : ∀ a ∈ starts, search a = .ok [f a]) :
    gather search starts = .ok (starts.map f) :=
  (gather_eq_flatMap h).trans (congrArg Except.ok (List.flatMap_pure_eq_map f starts))

theorem gather_eq_ok_nil {search : α → Except ε (List β)} {starts : List α}
    (h : ∀ a ∈ starts, search a = .ok []) : gather search starts = .ok [] :=
  (gather_eq_flatMap h).trans (congrArg Except.ok (List.flatMap_eq_nil_iff.mpr fun _ _ => rfl))

/-! ## Errors in other words -/

section
variable {ε' : Type} (spell : ε → ε')

theorem mapError_bind (x : Except ε α) (next : α → Except ε β) :
    (x >>= next).mapError spell = x.mapError spell >>= fun a => (next a).mapError spell := by
  cases x <;> rfl

theorem mapError_map (x : Except ε α) (f : α → β) :
    (x.map f).mapError spell = (x.mapError spell).map f := by
  cases x <;> rfl

theorem mapError_mapM (search : α → Except ε β) (starts : List α) :
    (starts.mapM search).mapError spell =
      starts.mapM fun start => (search start).mapError spell := by
  induction starts with
  | nil => rfl
  | cons start rest ih =>
    simp only [List.mapM_cons, mapError_bind, ih]
    rfl

theorem mapError_gather (search : α → Except ε (List β)) (starts : List α) :
    (gather search starts).mapError spell =
      gather (fun start => (search start).mapError spell) starts := by
  rw [gather, gather, mapError_map, mapError_mapM]

theorem mapError_eq_ok {x : Except ε α} {a : α} : x.mapError spell = .ok a ↔ x = .ok a := by
  cases x <;> simp [Except.mapError]

/-- Only the errors that occur count. -/
theorem mapError_eq_self {spell : ε → ε} {x : Except ε α} (h : ∀ e, x = .error e → spell e = e) :
    x.mapError spell = x := by
  cases x with
  | error e => exact congrArg Except.error (h e rfl)
  | ok a => rfl

end

end PathQuery
