import PathQuery.Proofs.Query.KeyPattern

/-! # Key patterns do not count

Names and wildcards look at no index.  So the language of a path, which only has them, holds
with a way also every way that goes through other elements of the same arrays
(`Path.language_blind`).
-/

namespace PathQuery

open List (Forall₂)

/-- The accessors are the same key, or both are indexes. -/
inductive Accessor.Alike : Accessor → Accessor → Prop
  | key (name : String) : Alike (.key name) (.key name)
  | index (i j : Nat) : Alike (.index i) (.index j)

/-- The language does not tell one index from another. -/
def Blind (language : Language Accessor) : Prop :=
  ∀ l l' : Location, Forall₂ Accessor.Alike l l' → l ∈ language → l' ∈ language

namespace Blind

variable {first second : Language Accessor}

theorem zero : Blind 0 :=
  fun l _ _ hl => absurd hl (Language.notMem_zero l)

theorem one : Blind 1 := by
  rintro l l' h rfl
  exact List.forall₂_nil_left_iff.mp h

theorem top : Blind ⊤ :=
  fun _ _ _ _ => trivial

theorem add (h₁ : Blind first) (h₂ : Blind second) : Blind (first + second) := by
  intro l l' h hl
  rw [Language.mem_add] at hl ⊢
  exact hl.imp (h₁ l l' h) (h₂ l l' h)

theorem mul (h₁ : Blind first) (h₂ : Blind second) : Blind (first * second) := by
  intro l l' h hl
  obtain ⟨a, ha, b, hb, rfl⟩ := Language.mem_mul.mp hl
  -- the other way is cut where this one is
  have htake := List.forall₂_take a.length h
  have hdrop := List.forall₂_drop a.length h
  rw [List.take_left] at htake
  rw [List.drop_left] at hdrop
  exact Language.mem_mul.mpr ⟨_, h₁ _ _ htake ha, _, h₂ _ _ hdrop hb, List.take_append_drop ..⟩

theorem sum {languages : List (Language Accessor)} (h : ∀ language ∈ languages, Blind language) :
    Blind languages.sum := by
  induction languages with
  | nil => exact zero
  | cons first rest ih =>
    rw [List.forall_mem_cons] at h
    rw [List.sum_cons]
    exact h.1.add (ih h.2)

theorem prod {languages : List (Language Accessor)} (h : ∀ language ∈ languages, Blind language) :
    Blind languages.prod := by
  induction languages with
  | nil => exact one
  | cons first rest ih =>
    rw [List.forall_mem_cons] at h
    rw [List.prod_cons]
    exact h.1.mul (ih h.2)

end Blind

theorem KeyTest.language_blind (key : KeyTest) : Blind key.language := by
  intro l l' h hl
  cases key with
  | name name =>
    obtain rfl : l = [.key name] := hl
    obtain ⟨b, rest, hb, hrest, rfl⟩ := List.forall₂_cons_left_iff.mp h
    cases hb
    obtain rfl := List.forall₂_nil_left_iff.mp hrest
    rfl
  | any => exact h.length_eq.symm.trans hl

theorem Head.language_blind (segmented : Bool) (head : Head) :
    Blind (head.language segmented) := by
  match head with
  | .here => exact .one
  | .child key => exact key.language_blind
  | .descend (some key) => exact Blind.top.mul key.language_blind
  | .descend none =>
    cases segmented with
    | true => exact .top
    | false => exact Blind.top.mul (KeyTest.language_blind .any)

theorem Selector.language_blind (s : Selector) : Blind s.language := by
  cases s with
  | name key => exact KeyTest.language_blind (.name key)
  | wildcard => exact KeyTest.language_blind .any
  | _ => exact .zero

theorem Segment.listLanguage_blind (segments : List Segment) : Blind (listLanguage segments) := by
  refine Blind.prod (List.forall_mem_map.mpr fun s _ => ?_)
  exact Blind.sum (List.forall_mem_map.mpr fun selector _ => selector.language_blind)

/-- A path describes ways by their keys and their lengths only. -/
theorem Path.language_blind (p : Path) : Blind p.language := by
  refine (Segment.listLanguage_blind p.segments).mul ?_
  refine Blind.prod (List.forall_mem_map.mpr fun s _ => ?_)
  exact (s.head.language_blind _).mul (Segment.listLanguage_blind s.segments)

end PathQuery
