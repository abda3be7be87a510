import Mathlib.Data.List.Chain
import PathQuery.Proofs.Query.SliceBounds

/-! # The walk of a slice

A walk adds its stride in integers of 64 bits, ends where a sum would leave them, and takes
only what is a place.  Neither of these ever costs it a place: between the bounds of a slice,
every integer on the way is a place, and a sum leaves the integers of 64 bits only behind the
stop.  So the places of a slice are the terms of an arithmetic progression of unbounded
integers, from its first bound to the last term before the second (`Slice.places_progression`).
-/

namespace PathQuery
namespace Slice

/-! ## Progressions -/

/-- The terms are `start`, `start + stride`, `start + 2 * stride` and so on, up to the first
one that reaches or passes `stop`; that one is left out. -/
structure IsProgression (stride start stop : Int) (terms : List Int) : Prop where
  term : ∀ k (h : k < terms.length), terms[k] = start + k * stride
  ahead : ∀ k < terms.length, Ahead stride (start + k * stride) stop
  reached : ¬Ahead stride (start + terms.length * stride) stop

namespace IsProgression

variable {stride start stop : Int} {terms : List Int}

theorem nil (h : ¬Ahead stride start stop) : IsProgression stride start stop [] where
  term _ hk := absurd hk (Nat.not_lt_zero _)
  ahead _ hk := absurd hk (Nat.not_lt_zero _)
  reached := by simpa using h

/-- The term number `k + 1` is the term number `k` of the progression from the next integer. -/
theorem term_succ (stride start : Int) (k : Nat) :
    start + stride + k * stride = start + (k + 1 : Nat) * stride := by
  rw [Int.natCast_succ, Int.add_mul, Int.one_mul]
  omega

theorem cons (h : Ahead stride start stop)
    (later : IsProgression stride (start + stride) stop terms) :
    IsProgression stride start stop (start :: terms) where
  term k hk := by
    cases k with
    | zero => simp
    | succ k =>
      rw [← term_succ, List.getElem_cons_succ]
      exact later.term k (Nat.lt_of_succ_lt_succ hk)
  ahead k hk := by
    cases k with
    | zero => simpa using h
    | succ k =>
      rw [← term_succ]
      exact later.ahead k (Nat.lt_of_succ_lt_succ hk)
  reached := by
    rw [List.length_cons, ← term_succ]
    exact later.reached

/-- From a term to the next one it is one stride. -/
theorem isChain (h : IsProgression stride start stop terms) :
    terms.IsChain fun m n => n = m + stride := by
  rw [List.isChain_iff_getElem]
  intro k hk
  rw [h.term k (Nat.lt_of_succ_lt hk), h.term (k + 1) hk, ← term_succ]
  omega

/-- No term lies behind `start`, and all lie before `stop`. -/
theorem between (h : IsProgression stride start stop terms) {n : Int} (hn : n ∈ terms) :
    (0 < stride → start ≤ n ∧ n < stop) ∧ (stride < 0 → stop < n ∧ n ≤ start) := by
  obtain ⟨k, hk, rfl⟩ := List.getElem_of_mem hn
  have hahead := h.ahead k hk
  rw [← h.term k hk] at hahead
  have hk0 : (0 : Int) ≤ k := Int.natCast_nonneg k
  constructor
  · intro hpos
    have hsteps : 0 ≤ (k : Int) * stride := Int.mul_nonneg hk0 (Int.le_of_lt hpos)
    have hterm := h.term k hk
    unfold Ahead at hahead
    omega
  · intro hneg
    have hsteps : (k : Int) * stride ≤ 0 :=
      Int.mul_nonpos_of_nonneg_of_nonpos hk0 (Int.le_of_lt hneg)
    have hterm := h.term k hk
    unfold Ahead at hahead
    omega

end IsProgression

/-! ## Walks that lose nothing -/

/-- Upwards, a walk starts at a place and has a stop of 64 bits; downwards, it stops behind the
first place and has a start of 64 bits. -/
structure Guarded (stride stop i : Int) : Prop where
  upwards : 0 < stride → 0 ≤ i ∧ InRange stop
  downwards : stride < 0 → -1 ≤ stop ∧ InRange i

namespace Guarded

variable {stride stop i : Int}

/-- Every integer on the way is a place. -/
theorem nonneg (h : Guarded stride stop i) (hahead : Ahead stride i stop) : 0 ≤ i := by
  rcases hahead with ⟨hpos, -⟩ | ⟨hneg, hbefore⟩
  · exact (h.upwards hpos).1
  · have hstop := (h.downwards hneg).1
    omega

/-- A sum that is an integer of 64 bits is again the start of such a walk. -/
theorem next (h : Guarded stride stop i) (hrange : InRange (i + stride)) :
    Guarded stride stop (i + stride) where
  upwards hpos := by
    obtain ⟨hi, hstop⟩ := h.upwards hpos
    exact ⟨by omega, hstop⟩
  downwards hneg := ⟨(h.downwards hneg).1, hrange⟩

/-- A sum that is none has reached the stop. -/
theorem passed (h : Guarded stride stop i) (hrange : ¬InRange (i + stride)) :
    ¬Ahead stride (i + stride) stop := by
  rw [inRange_iff] at hrange
  rintro (⟨hpos, hbefore⟩ | ⟨hneg, hbefore⟩)
  · obtain ⟨hi, hstop⟩ := h.upwards hpos
    rw [inRange_iff] at hstop
    omega
  · obtain ⟨hstop, hi⟩ := h.downwards hneg
    rw [inRange_iff] at hi
    omega

end Guarded

/-- **A guarded walk takes every term up to its stop.** -/
theorem walk_progression {stride stop i : Int} (h : Guarded stride stop i) :
    IsProgression stride i stop ((walk stride stop i).map Int.ofNat) := by
  by_cases hahead : Ahead stride i stop
  · have hplace : Int.ofNat i.toNat = i := Int.toNat_of_nonneg (h.nonneg hahead)
    rw [walk_of_ahead hahead (h.nonneg hahead), List.map_cons, hplace]
    refine .cons hahead ?_
    by_cases hrange : InRange (i + stride)
    · rw [if_pos hrange]
      have := distance_lt hahead (if_pos hrange)
      exact walk_progression (h.next hrange)
    · rw [if_neg hrange]
      exact .nil (h.passed hrange)
  · rw [walk_of_not_ahead hahead]
    exact .nil hahead
termination_by distance stride i stop

/-! ## Slices -/

variable {s : Slice} {length : Nat}

/-- A bound that is counted is below the end of the integers of 64 bits. -/
theorem counted_lt (hlength : length < 0x8000000000000000) (b : Int64) :
    counted length b < 0x8000000000000000 := by
  have hb := b.toInt_lt
  unfold counted
  split <;> omega

theorem getD_counted_lt (hlength : length < 0x8000000000000000) (bound : Option Int64)
    {absent : Int} (habsent : absent < 0x8000000000000000) :
    (bound.map (counted length)).getD absent < 0x8000000000000000 := by
  cases bound with
  | none => exact habsent
  | some b => exact counted_lt hlength b

/-- A walk from `start` to `stop` in an array: it loses nothing, needs no integer beyond 64 bits
and stays in the array. -/
structure Fitting (stride start stop : Int) (length : Nat) : Prop extends
    Guarded stride stop start where
  start_inRange : InRange start
  stop_inRange : InRange stop
  stop_le : 0 < stride → stop ≤ length
  start_lt : stride < 0 → start < length

/-- **The bounds of a slice, brought into range, fit its array.** -/
theorem fitting_limits (s : Slice) (hlength : length < 0x8000000000000000) :
    Fitting s.stride.toInt (s.limits length).1 (s.limits length).2 length := by
  have hrange : InRange length := inRange_iff.mpr (by omega)
  have hstart : s.countedStart length < 0x8000000000000000 :=
    getD_counted_lt hlength s.start (by split <;> omega)
  have hstop : s.countedStop length < 0x8000000000000000 :=
    getD_counted_lt hlength s.stop (by split <;> omega)
  by_cases hpos : 0 < s.stride.toInt
  · rw [limits_forwards s hpos (by omega) hrange]
    have hfirst : InRange (max 0 (s.countedStart length)) := inRange_iff.mpr (by omega)
    have hlast : InRange (min (length : Int) (max 0 (s.countedStop length))) :=
      inRange_iff.mpr (by omega)
    exact {
      upwards := fun _ => ⟨by omega, hlast⟩
      downwards := by omega
      start_inRange := hfirst
      stop_inRange := hlast
      stop_le := by omega
      start_lt := by omega }
  · rw [limits_backwards s hpos (by omega) hrange]
    have hfirst : InRange (min ((length : Int) - 1) (max 0 (s.countedStart length))) :=
      inRange_iff.mpr (by omega)
    have hlast : InRange (max (-1) (s.countedStop length)) := inRange_iff.mpr (by omega)
    exact {
      upwards := by omega
      downwards := fun _ => ⟨by omega, hfirst⟩
      start_inRange := hfirst
      stop_inRange := hlast
      stop_le := by omega
      start_lt := by omega }

/-- **The places of a slice are the terms of a progression** from its first bound, by its
stride, up to the first term that reaches or passes its second bound; they lie in the array, and
none comes twice.  The bounds may be any integers of 64 bits, and so may the stride. -/
theorem places_progression (s : Slice) (length : Nat) (hlength : length < 0x8000000000000000)
    (hstride : s.stride ≠ 0) :
    let start := (s.limits length).1
    let stop := (s.limits length).2
    let places := s.places length
    InRange start ∧ InRange stop ∧
      IsProgression s.stride.toInt start stop (places.map Int.ofNat) ∧
      (∀ n ∈ places, n < length) ∧
      (places.IsChain fun (m n : Nat) => (n : Int) = m + s.stride.toInt) ∧
      places.Nodup := by
  intro start stop places
  have hfits := s.fitting_limits hlength
  have hprogression : IsProgression s.stride.toInt start stop (places.map Int.ofNat) := by
    have hwalk := walk_progression hfits.toGuarded
    rwa [← places_eq_walk hlength hstride] at hwalk
  refine ⟨hfits.start_inRange, hfits.stop_inRange, hprogression, fun n hn => ?_, ?_,
    s.nodup_places length⟩
  · obtain ⟨hup, hdown⟩ := hprogression.between (List.mem_map_of_mem hn)
    have hne : s.stride.toInt ≠ 0 := fun hzero => hstride (Int64.toInt_inj.mp hzero)
    rcases Int.lt_or_gt_of_ne hne with hneg | hpos
    · have hlast := hfits.start_lt hneg
      have hn := (hdown hneg).2
      exact Int.ofNat_lt.mp (Int.lt_of_le_of_lt hn hlast)
    · have hlast := hfits.stop_le hpos
      have hn := (hup hpos).2
      exact Int.ofNat_lt.mp (Int.lt_of_lt_of_le hn hlast)
  · exact (List.isChain_map _).mp hprogression.isChain

/-- By the greatest stride, the sum behind the first place leaves the integers of 64 bits. -/
theorem places_progression_overflowing : 5 < 0x8000000000000000 ∧
    (⟨some (-4), none, some Int64.maxValue⟩ : Slice).stride ≠ 0 ∧
    ¬InRange (1 + Int64.maxValue.toInt) ∧
    (⟨some (-4), none, some Int64.maxValue⟩ : Slice).places 5 = [1] ∧
    IsProgression Int64.maxValue.toInt 1 5 [1] := by
  have hlength : 5 < 0x8000000000000000 := by decide
  have hstride : (⟨some (-4), none, some Int64.maxValue⟩ : Slice).stride ≠ 0 := by decide
  have hplaces : (⟨some (-4), none, some Int64.maxValue⟩ : Slice).places 5 = [1] := by
    decide +kernel
  obtain ⟨-, -, hprogression, -⟩ := places_progression _ 5 hlength hstride
  rw [hplaces] at hprogression
  exact ⟨hlength, hstride, by decide, hplaces, hprogression⟩

end Slice
end PathQuery
