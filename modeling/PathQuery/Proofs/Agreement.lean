import PathQuery.Proofs.Outcome

/-! # Outcomes that agree

Two computations agree if they end in related results or in the same error.  Some errors of
the first one may be excused: after such an error the second one may end in any way.
Computations that are built in the same way from parts that agree, agree themselves.
-/

namespace PathQuery

/-- Both computations have results, which are related, or both fail with the same error,
unless the first fails with an error that is excused. -/
inductive Agree {ε α β : Type} (Excused : ε → Prop) (R : α → β → Prop) :
    Except ε α → Except ε β → Prop
  | ok {a : α} {b : β} (h : R a b) : Agree Excused R (.ok a) (.ok b)
  | error (e : ε) : Agree Excused R (.error e) (.error e)
  | excused {e : ε} (h : Excused e) (y : Except ε β) : Agree Excused R (.error e) y

namespace Agree

variable {ε α β γ δ : Type} {Excused : ε → Prop} {R : α → β → Prop} {S : γ → δ → Prop}
  {x : Except ε α} {y : Except ε β}

theorem refl (x : Except ε α) : Agree Excused Eq x x := by
  cases x with
  | error e => exact .error e
  | ok a => exact .ok rfl

/-- Results that are related in one way may be related in a weaker one. -/
theorem imp {S : α → β → Prop} (h : Agree Excused R x y) (hresult : ∀ a b, R a b → S a b) :
    Agree Excused S x y := by
  cases h with
  | ok h => exact .ok (hresult _ _ h)
  | error e => exact .error e
  | excused he => exact .excused he _

/-- More errors may be excused. -/
theorem excuse {Excused' : ε → Prop} (h : Agree Excused R x y)
    (hexcused : ∀ e, Excused e → Excused' e) : Agree Excused' R x y := by
  cases h with
  | ok h => exact .ok h
  | error e => exact .error e
  | excused he => exact .excused (hexcused _ he) _

/-- A result has a related one in the other computation. -/
theorem exists_of_ok {a : α} (h : Agree Excused R (.ok a) y) : ∃ b, y = .ok b ∧ R a b := by
  cases h with
  | ok h => exact ⟨_, rfl, h⟩

/-- If results are related only to themselves, the other computation has the same one. -/
theorem eq_ok {y : Except ε α} {a : α} (h : Agree Excused Eq x y) (hx : x = .ok a) :
    y = .ok a := by
  rw [hx] at h
  obtain ⟨_, hy, rfl⟩ := h.exists_of_ok
  exact hy

/-- Without an excuse, computations that agree up to equality of results are the same. -/
theorem eq_of_not_excused {y : Except ε α} (h : Agree Excused Eq x y)
    (hx : ∀ e, x = .error e → ¬ Excused e) : y = x := by
  cases h with
  | ok h => rw [h]
  | error e => rfl
  | excused he => exact absurd he (hx _ rfl)

/-- An error without an excuse is an error of the other computation too. -/
theorem eq_error {e : ε} (h : Agree Excused R x y) (hx : x = .error e) (he : ¬ Excused e) :
    y = .error e := by
  cases h with
  | ok h => cases hx
  | error e => exact congrArg Except.error (Except.error.inj hx)
  | excused he' => exact absurd (Except.error.inj hx ▸ he') he

theorem bind {f : α → Except ε γ} {g : β → Except ε δ} (h : Agree Excused R x y)
    (hnext : ∀ a b, R a b → Agree Excused S (f a) (g b)) :
    Agree Excused S (x >>= f) (y >>= g) := by
  cases h with
  | ok h => exact hnext _ _ h
  | error e => exact .error e
  | excused he => exact .excused he _

/-- Both computations go on from the same result. -/
theorem bind_self {f g : α → Except ε γ} {S : γ → γ → Prop}
    (hnext : ∀ a, x = .ok a → Agree Excused S (f a) (g a)) :
    Agree Excused S (x >>= f) (x >>= g) := by
  cases x with
  | error e => exact .error e
  | ok a => exact hnext a rfl

theorem map {f : α → γ} {g : β → δ} (h : Agree Excused R x y)
    (hresult : ∀ a b, R a b → S (f a) (g b)) : Agree Excused S (x.map f) (y.map g) := by
  cases h with
  | ok h => exact .ok (hresult _ _ h)
  | error e => exact .error e
  | excused he => exact .excused he _

theorem map_self {y : Except ε α} (h : Agree Excused Eq x y) (f : α → γ) :
    Agree Excused Eq (x.map f) (y.map f) :=
  h.map fun _ _ heq => congrArg f heq

/-- Computations on the members of two lists, one after the other. -/
theorem mapM {f : α → Except ε γ} {g : β → Except ε δ} {as : List α} {bs : List β}
    (h : List.Forall₂ (fun a b => Agree Excused S (f a) (g b)) as bs) :
    Agree Excused (List.Forall₂ S) (as.mapM f) (bs.mapM g) := by
  induction h with
  | nil => exact .ok .nil
  | cons hab _ ih =>
    rw [List.mapM_cons, List.mapM_cons]
    exact hab.bind fun c d hcd => ih.bind fun cs ds hcds => .ok (.cons hcd hcds)

/-- Computations on the members of one list. -/
theorem mapM_self {f g : α → Except ε γ} {as : List α}
    (h : ∀ a ∈ as, Agree Excused Eq (f a) (g a)) :
    Agree Excused Eq (as.mapM f) (as.mapM g) := by
  have hall := mapM (S := Eq) (List.forall₂_same.mpr h)
  rwa [List.forall₂_eq_eq_eq] at hall

/-- Searches from the members of two lists. -/
theorem gather {f : α → Except ε (List γ)} {g : β → Except ε (List δ)} {as : List α}
    {bs : List β} (h : List.Forall₂ (fun a b => Agree Excused (List.Forall₂ S) (f a) (g b)) as bs) :
    Agree Excused (List.Forall₂ S) (gather f as) (gather g bs) :=
  (mapM h).map fun _ _ hparts => List.rel_flatten hparts

end Agree
end PathQuery
