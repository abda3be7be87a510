import Mathlib.Data.List.Sort
import Mathlib.Data.List.Perm.Basic
import Mathlib.Data.Finset.Card
import PathQuery.Json.Location

/-! # The order of locations

Accessors are linearly ordered, and locations lexicographically by them.  A
location stands before everything below it (`lt_append_cons`), so in descending
order a value comes before the values that contain it.

`distinctDescending` is what its name says: its result has the members of the list
it is given (`mem_distinctDescending`), strictly descends
(`distinctDescending_pairwise`), and is the only list of these members that does
(`eq_distinctDescending`).
-/

namespace PathQuery

namespace Accessor

@[simp] theorem le_refl (a : Accessor) : a.le a = true := by
  cases a with
  | key name => exact decide_eq_true (Std.le_refl name)
  | index i => exact decide_eq_true (Nat.le_refl i)

theorem le_total (a b : Accessor) : a.le b = true ∨ b.le a = true := by
  cases a with
  | key name =>
    cases b with
    | key name' => simpa [le] using String.le_total name name'
    | index i => exact Or.inl rfl
  | index i =>
    cases b with
    | key name' => exact Or.inr rfl
    | index j => simpa [le] using Nat.le_total i j

theorem le_antisymm {a b : Accessor} (hab : a.le b = true) (hba : b.le a = true) : a = b := by
  cases a with
  | key name =>
    cases b with
    | key name' => rw [String.le_antisymm (of_decide_eq_true hab) (of_decide_eq_true hba)]
    | index i => simp [le] at hba
  | index i =>
    cases b with
    | key name' => simp [le] at hab
    | index j => rw [Nat.le_antisymm (of_decide_eq_true hab) (of_decide_eq_true hba)]

theorem le_trans {a b c : Accessor} (hab : a.le b = true) (hbc : b.le c = true) :
    a.le c = true := by
  cases a with
  | key name =>
    cases c with
    | index i => rfl
    | key name'' =>
      cases b with
      | index i => simp [le] at hbc
      | key name' =>
        exact decide_eq_true (String.le_trans (of_decide_eq_true hab) (of_decide_eq_true hbc))
  | index i =>
    cases b with
    | key name' => simp [le] at hab
    | index j =>
      cases c with
      | key name'' => simp [le] at hbc
      | index k =>
        exact decide_eq_true (Nat.le_trans (of_decide_eq_true hab) (of_decide_eq_true hbc))

end Accessor

namespace Location

/-- The strict order of locations. -/
def lt (l l' : Location) : Prop :=
  le l l' = true ∧ l ≠ l'

@[simp] theorem nil_lt_cons (a : Accessor) (l : Location) : lt [] (a :: l) :=
  ⟨rfl, by simp⟩

@[simp] theorem not_lt_nil (l : Location) : ¬ lt l [] := by
  rintro ⟨hle, hne⟩
  cases l with
  | nil => exact hne rfl
  | cons a l => simp [le] at hle

theorem not_lt_self (l : Location) : ¬ lt l l :=
  fun h => h.2 rfl

@[simp] theorem cons_lt_cons_self {a : Accessor} {l l' : Location} :
    lt (a :: l) (a :: l') ↔ lt l l' := by
  simp [lt, le]

theorem cons_lt_cons_of_ne {a b : Accessor} {l l' : Location} (h : a ≠ b) :
    lt (a :: l) (b :: l') ↔ a.le b = true := by
  simp [lt, le, h]

theorem le_total (l l' : Location) : le l l' = true ∨ le l' l = true := by
  induction l generalizing l' with
  | nil => exact Or.inl rfl
  | cons a l ih =>
    cases l' with
    | nil => exact Or.inr rfl
    | cons b l' =>
      by_cases h : a = b
      · subst h
        simpa [le] using ih l'
      · simpa [le, h, Ne.symm h] using a.le_total b

theorem le_antisymm {l l' : Location} (h : le l l' = true) (h' : le l' l = true) : l = l' := by
  induction l generalizing l' with
  | nil =>
    cases l' with
    | nil => rfl
    | cons b l' => simp [le] at h'
  | cons a l ih =>
    cases l' with
    | nil => simp [le] at h
    | cons b l' =>
      by_cases hab : a = b
      · subst hab
        rw [ih (by simpa [le] using h) (by simpa [le] using h')]
      · simp only [le, hab, Ne.symm hab, if_false] at h h'
        exact absurd (Accessor.le_antisymm h h') hab

theorem le_trans {l l' l'' : Location} (h : le l l' = true) (h' : le l' l'' = true) :
    le l l'' = true := by
  induction l generalizing l' l'' with
  | nil => rfl
  | cons a l ih =>
    cases l' with
    | nil => simp [le] at h
    | cons b l' =>
      cases l'' with
      | nil => simp [le] at h'
      | cons c l'' =>
        by_cases hab : a = b
        · subst hab
          by_cases hac : a = c
          · subst hac
            simp only [le, if_true] at h h' ⊢
            exact ih h h'
          · simpa [le, hac] using h'
        · simp only [le, hab, if_false] at h
          by_cases hbc : b = c
          · subst hbc
            simpa [le, hab] using h
          · simp only [le, hbc, if_false] at h'
            -- `a = c` would put `b` on both sides of `a`
            by_cases hac : a = c
            · subst hac
              exact absurd (Accessor.le_antisymm h h') hab
            · simpa [le, hac] using Accessor.le_trans h h'

theorem lt_trans {l l' l'' : Location} (h : lt l l') (h' : lt l' l'') : lt l l'' :=
  ⟨le_trans h.1 h'.1, fun he => h.2 (le_antisymm h.1 (he ▸ h'.1))⟩

/-- A location stands before what lies below it. -/
theorem lt_append_cons (l : Location) (a : Accessor) (below : Location) :
    lt l (l ++ a :: below) := by
  induction l with
  | nil => exact nil_lt_cons a below
  | cons b l ih => simpa using ih

/-! ## Distinct locations in descending order -/

theorem mem_dropRepeats {l : Location} {locations : List Location} :
    l ∈ dropRepeats locations ↔ l ∈ locations := by
  fun_induction dropRepeats locations with
  | case1 a rest ih =>
    rw [ih]
    simp
  | case2 a b rest hab ih => rw [List.mem_cons, ih, List.mem_cons (b := a)]
  | case3 => rfl

theorem dropRepeats_pairwise {locations : List Location}
    (h : locations.Pairwise fun l l' => le l' l = true) :
    (dropRepeats locations).Pairwise fun l l' => lt l' l := by
  fun_induction dropRepeats locations with
  | case1 a rest ih => exact ih h.of_cons
  | case2 a b rest hab ih =>
    refine List.pairwise_cons.mpr ⟨fun l hl => ?_, ih h.of_cons⟩
    -- what follows is at most `b`, which is below `a`
    have hba : le b a = true := List.rel_of_pairwise_cons h (List.mem_cons_self ..)
    have hlb : le l b = true := by
      rcases List.mem_cons.mp (mem_dropRepeats.mp hl) with rfl | hl
      · exact (le_total l l).elim id id
      · exact List.rel_of_pairwise_cons h.of_cons hl
    refine ⟨le_trans hlb hba, ?_⟩
    rintro rfl
    exact hab (le_antisymm hlb hba)
  | case3 short hshort =>
    cases short with
    | nil => exact List.Pairwise.nil
    | cons a rest =>
      cases rest with
      | nil => exact List.pairwise_singleton ..
      | cons b rest => exact absurd rfl (hshort a b rest)

theorem mem_distinctDescending {l : Location} {locations : List Location} :
    l ∈ distinctDescending locations ↔ l ∈ locations := by
  rw [distinctDescending, mem_dropRepeats, List.mem_mergeSort]

theorem distinctDescending_ne_nil {locations : List Location} (h : locations ≠ []) :
    distinctDescending locations ≠ [] := by
  obtain ⟨l, hl⟩ := List.exists_mem_of_ne_nil locations h
  exact List.ne_nil_of_mem (mem_distinctDescending.mpr hl)

theorem distinctDescending_pairwise (locations : List Location) :
    (distinctDescending locations).Pairwise fun l l' => lt l' l := by
  refine dropRepeats_pairwise (List.pairwise_mergeSort ?_ ?_ locations)
  · exact fun a b c hba hcb => le_trans hcb hba
  · exact fun a b => by simpa using le_total b a

theorem nodup_of_pairwise_lt {locations : List Location}
    (h : locations.Pairwise fun l l' => lt l' l) : locations.Nodup :=
  h.imp fun hlt he => hlt.2 he.symm

/-- There is only one way to list given locations in descending order. -/
theorem eq_distinctDescending {targets locations : List Location}
    (hdesc : targets.Pairwise fun l l' => lt l' l)
    (hmem : ∀ l, l ∈ targets ↔ l ∈ locations) : targets = distinctDescending locations := by
  have hall := distinctDescending_pairwise locations
  have hperm : targets.Perm (distinctDescending locations) :=
    (List.perm_ext_iff_of_nodup (nodup_of_pairwise_lt hdesc) (nodup_of_pairwise_lt hall)).mpr
      fun l => (hmem l).trans mem_distinctDescending.symm
  exact hperm.eq_of_pairwise
    (fun a b _ _ hba hab => absurd (lt_trans hab hba) (not_lt_self a)) hdesc hall

theorem length_distinctDescending (locations : List Location) :
    (distinctDescending locations).length = locations.toFinset.card := by
  have hnodup := nodup_of_pairwise_lt (distinctDescending_pairwise locations)
  rw [← List.toFinset_card_of_nodup hnodup]
  exact congrArg Finset.card (List.toFinset.ext fun l => mem_distinctDescending)

end Location
end PathQuery
