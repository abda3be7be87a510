import Mathlib.Data.List.Basic
import PathQuery.Query.Slice

/-! # The places of a slice

RFC 9535 says in unbounded integers where a slice starts and stops and which places it
takes on the way (`Slice.standardPlaces`).  A slice takes these places in either direction
and whatever its bounds are, with one exception.  If it goes backwards, starts before the
front of an array and does not stop there either, it takes nothing by the standard, but its
start is brought to the front, and it takes the first place (`Slice.places_standard_iff`).
-/

namespace PathQuery
namespace Slice

/-! ## The standard -/

/-- A bound of an array of a given length; a negative one counts from the end. -/
def counted (length : Int) (bound : Int64) : Int :=
  if 0 ≤ bound.toInt then bound.toInt else length + bound.toInt

/-- The number, brought between two limits. -/
def clamped (least greatest n : Int) : Int :=
  max least (min greatest n)

/-- The first bound, or else the end of the array from which the slice goes. -/
def countedStart (s : Slice) (length : Int) : Int :=
  (s.start.map (counted length)).getD (if 0 < s.stride.toInt then 0 else length - 1)

/-- The last bound, or else what lies beyond the end of the array to which it goes. -/
def countedStop (s : Slice) (length : Int) : Int :=
  (s.stop.map (counted length)).getD (if 0 < s.stride.toInt then length else -1)

/-- A bound, brought into the array or to what lies before its first place in the direction
of the slice. -/
def standardBound (s : Slice) (length bound : Int) : Int :=
  if 0 < s.stride.toInt then clamped 0 length bound else clamped (-1) (length - 1) bound

/-- The integers from `i` upwards in equal steps, as long as they are below `stop`. -/
def upwards (step stop i : Int) : List Int :=
  if 0 < step ∧ i < stop then i :: upwards step stop (i + step) else []
termination_by (stop - i).toNat

/-- The integers from `i` downwards in equal steps, as long as they are above `stop`. -/
def downwards (step stop i : Int) : List Int :=
  if 0 < step ∧ stop < i then i :: downwards step stop (i - step) else []
termination_by (i - stop).toNat

/-- The places that the slice takes by the standard. -/
def standardPlaces (s : Slice) (length : Int) : List Int :=
  let start := s.standardBound length (s.countedStart length)
  let stop := s.standardBound length (s.countedStop length)
  if 0 < s.stride.toInt then upwards s.stride.toInt stop start
  else downwards (-s.stride.toInt) stop start

/-- The slice goes backwards and starts before the front of an array that is not empty; its
last bound, if it has one, lies before the front as well. -/
def Overshoots (s : Slice) (length : Int) : Prop :=
  s.stride.toInt < 0 ∧ 0 < length ∧ (∃ b ∈ s.start, b.toInt < -length) ∧
    ∀ b ∈ s.stop, b.toInt < -length

instance (s : Slice) (length : Int) : Decidable (s.Overshoots length) :=
  inferInstanceAs (Decidable (_ ∧ _))

/-! ## Walks in either direction -/

variable {stride stop i length : Int}

theorem inRange_iff {n : Int} : InRange n ↔ -0x8000000000000000 ≤ n ∧ n < 0x8000000000000000 := by
  have hleast : Int64.minValue.toInt = -0x8000000000000000 := by decide
  have hgreatest : Int64.maxValue.toInt = 0x8000000000000000 - 1 := by decide
  unfold InRange
  omega

theorem inRange_toInt (n : Int64) : InRange n.toInt :=
  inRange_iff.mpr ⟨n.le_toInt, n.toInt_lt⟩

theorem walk_of_not_ahead (h : ¬Ahead stride i stop) : walk stride stop i = [] := by
  rw [walk, dif_neg h]

/-- A place on the way is taken, and the walk goes on from the next one, if that is an
integer of 64 bits. -/
theorem walk_of_ahead (h : Ahead stride i stop) (hi : 0 ≤ i) : walk stride stop i =
    i.toNat :: if InRange (i + stride) then walk stride stop (i + stride) else [] := by
  rw [walk, dif_pos h]
  simp only [if_pos hi]
  congr 1
  by_cases hnext : InRange (i + stride)
  · have hadd : checkedAdd i stride = some (i + stride) := if_pos hnext
    rw [if_pos hnext]
    split
    · rename_i next hsome
      rw [hadd, Option.some.injEq] at hsome
      rw [hsome]
    · rename_i hnone
      simp [hadd] at hnone
  · have hadd : checkedAdd i stride = none := if_neg hnext
    rw [if_neg hnext]
    split
    · rename_i next hsome
      simp [hadd] at hsome
    · rfl

theorem upwards_eq_nil (h : stop ≤ i) : upwards stride stop i = [] := by
  rw [upwards, if_neg (by omega)]

theorem downwards_eq_nil (h : i ≤ stop) : downwards stride stop i = [] := by
  rw [downwards, if_neg (by omega)]

/-- **A walk upwards is not cut short.**  Where it would leave the integers of 64 bits, it
is past its stop. -/
theorem walk_upwards (hstride : 0 < stride) (hstop : InRange stop) (hi : 0 ≤ i) :
    (walk stride stop i).map Int.ofNat = upwards stride stop i := by
  fun_induction upwards stride stop i with
  | case1 i h ih =>
    have hplace : Int.ofNat i.toNat = i := Int.toNat_of_nonneg hi
    rw [walk_of_ahead (Or.inl h) hi, List.map_cons, hplace]
    by_cases hnext : InRange (i + stride)
    · rw [if_pos hnext, ih (by omega)]
    · have hpast : stop ≤ i + stride := by
        rw [inRange_iff] at hstop hnext
        omega
      rw [if_neg hnext, upwards_eq_nil hpast, List.map_nil]
  | case2 i h =>
    have hbehind : ¬Ahead stride i stop := by
      unfold Ahead
      omega
    rw [walk_of_not_ahead hbehind, List.map_nil]

/-- Nor is a walk downwards. -/
theorem walk_downwards (hstride : stride < 0) (hstop : -1 ≤ stop) (hi : InRange i) :
    (walk stride stop i).map Int.ofNat = downwards (-stride) stop i := by
  obtain ⟨step, rfl⟩ : ∃ step, stride = -step := ⟨-stride, (Int.neg_neg stride).symm⟩
  rw [Int.neg_neg]
  fun_induction downwards step stop i with
  | case1 i h ih =>
    have hplace : Int.ofNat i.toNat = i := Int.toNat_of_nonneg (by omega)
    rw [walk_of_ahead (Or.inr ⟨hstride, h.2⟩) (by omega), List.map_cons, hplace]
    by_cases hnext : InRange (i + -step)
    · rw [if_pos hnext, ← ih hnext]
      rfl
    · have hpast : i - step ≤ stop := by
        rw [inRange_iff] at hi hnext
        omega
      rw [if_neg hnext, downwards_eq_nil hpast, List.map_nil]
  | case2 i h =>
    have hbehind : ¬Ahead (-step) i stop := by
      unfold Ahead
      omega
    rw [walk_of_not_ahead hbehind, List.map_nil]

/-! ## The order of places -/

/-- A walk ends where nothing lies ahead, or takes a place, if there is one, and goes on in its
stride or ends with it. -/
theorem walk_induction {P : Int → List Nat → Prop} (stopped : ∀ i, P i [])
    (step : ∀ i later, Ahead stride i stop → (later = [] ∨ P (i + stride) later) →
      P i (if 0 ≤ i then i.toNat :: later else later)) (i : Int) :
    P i (walk stride stop i) := by
  rw [walk]
  split
  case isFalse => exact stopped i
  case isTrue hahead =>
    refine step i _ hahead ?_
    split
    case h_1 next hnext =>
      refine Or.inr ?_
      have hsum : next = i + stride := by
        unfold checkedAdd at hnext
        split at hnext
        · exact (Option.some.inj hnext).symm
        · cases hnext
      subst hsum
      have := distance_lt hahead hnext
      exact walk_induction stopped step (i + stride)
    case h_2 => exact Or.inl rfl
termination_by distance stride i stop

/-- Of two places, the first comes before the second in the direction of the stride. -/
def Leads (stride : Int) (m n : Nat) : Prop :=
  (0 < stride ∧ m < n) ∨ (stride < 0 ∧ n < m)

/-- A walk goes away from where it starts and does not turn round. -/
theorem pairwise_walk (stride stop i : Int) : (walk stride stop i).Pairwise (Leads stride) := by
  have hwalk : (walk stride stop i).Pairwise (Leads stride) ∧ ∀ n ∈ walk stride stop i,
      (0 < stride → i ≤ n) ∧ (stride < 0 → (n : Int) ≤ i) := by
    refine walk_induction (P := fun i places => places.Pairwise (Leads stride) ∧
      ∀ n ∈ places, (0 < stride → i ≤ n) ∧ (stride < 0 → (n : Int) ≤ i)) ?_ ?_ i
    · exact fun i => ⟨List.Pairwise.nil, by simp⟩
    · intro i later hahead hlater
      -- what comes later lies beyond the next place
      have hbeyond : later.Pairwise (Leads stride) ∧ ∀ n ∈ later,
          (0 < stride → i < n) ∧ (stride < 0 → (n : Int) < i) := by
        rcases hlater with rfl | ⟨hordered, hlater⟩
        · exact ⟨List.Pairwise.nil, by simp⟩
        · refine ⟨hordered, fun n hn => ?_⟩
          have hn := hlater n hn
          omega
      split
      · rename_i hi
        refine ⟨List.pairwise_cons.mpr ⟨fun n hn => ?_, hbeyond.1⟩, fun n hn => ?_⟩
        · have hn := hbeyond.2 n hn
          unfold Ahead at hahead
          unfold Leads
          omega
        · rcases List.mem_cons.mp hn with rfl | hn
          · omega
          · have hn := hbeyond.2 n hn
            omega
      · refine ⟨hbeyond.1, fun n hn => ?_⟩
        have hn := hbeyond.2 n hn
        omega
  exact hwalk.1

/-- **A slice goes through its places in the direction of its stride.** -/
theorem pairwise_places (s : Slice) (length : Nat) :
    (s.places length).Pairwise (Leads s.stride.toInt) := by
  unfold places
  dsimp only
  split
  · exact List.Pairwise.nil
  · exact pairwise_walk _ _ _

/-- No slice takes a place twice. -/
theorem nodup_places (s : Slice) (length : Nat) : (s.places length).Nodup := by
  refine (pairwise_places s length).imp fun {m n} hleads => ?_
  unfold Leads at hleads
  omega

/-! ## Bounds -/

/-- A bound of an array that has a length of 64 bits is counted without saturation, and not
from before `least`. -/
theorem fromStart_eq (b : Int64) {least : Int} (hlength : 0 ≤ length) (hrange : InRange length)
    (hleast : least ≤ 0) : fromStart b.toInt length least = max least (counted length b) := by
  have hb := inRange_iff.mp (inRange_toInt b)
  rw [inRange_iff] at hrange
  have hleastValue : Int64.minValue.toInt = -0x8000000000000000 := by decide
  have hgreatest : Int64.maxValue.toInt = 0x8000000000000000 - 1 := by decide
  unfold fromStart counted saturatingAdd
  split <;> omega

/-- The bounds of a slice that goes forwards. -/
theorem limits_forwards (s : Slice) (h : 0 < s.stride.toInt) (hlength : 0 ≤ length)
    (hrange : InRange length) : s.limits length =
      (max 0 (s.countedStart length), min length (max 0 (s.countedStop length))) := by
  unfold limits countedStart countedStop
  simp only [if_pos h]
  congr 1
  · cases s.start with
    | none => rfl
    | some b => simp [fromStart_eq b hlength hrange (Int.le_refl 0)]
  · cases s.stop with
    | none =>
      simp only [Option.map_none, Option.getD_none]
      omega
    | some b => simp [fromStart_eq b hlength hrange (Int.le_refl 0)]

/-- The bounds of a slice that goes backwards: the first one is brought to the front if it
lies before it, and the last one to what lies before the front. -/
theorem limits_backwards (s : Slice) (h : ¬0 < s.stride.toInt) (hlength : 0 ≤ length)
    (hrange : InRange length) : s.limits length =
      (min (length - 1) (max 0 (s.countedStart length)), max (-1) (s.countedStop length)) := by
  unfold limits countedStart countedStop
  simp only [if_neg h]
  congr 1
  · cases s.start with
    | none =>
      simp only [Option.map_none, Option.getD_none]
      omega
    | some b => simp [fromStart_eq b hlength hrange (Int.le_refl 0)]
  · cases s.stop with
    | none => rfl
    | some b => simp [fromStart_eq b hlength hrange (by decide : (-1 : Int) ≤ 0)]

theorem overshoots_iff (s : Slice) (hlength : 0 ≤ length) : s.Overshoots length ↔
    s.stride.toInt < 0 ∧ 0 < length ∧ s.countedStart length < 0 ∧ s.countedStop length < 0 := by
  have hcounted : ∀ b : Int64, counted length b < 0 ↔ b.toInt < -length := by
    intro b
    unfold counted
    split <;> omega
  refine and_congr_right fun hstride => and_congr_right fun hpos => ?_
  unfold countedStart countedStop
  refine and_congr ?_ ?_
  · cases s.start with
    | none => simp; omega
    | some b => simp [hcounted]
  · cases s.stop with
    | none => simp; omega
    | some b => simp [hcounted]

/-! ## Places -/

theorem places_eq_walk {s : Slice} {length : Nat} (hlength : length < 0x8000000000000000)
    (hstride : s.stride ≠ 0) :
    s.places length = walk s.stride.toInt (s.limits length).2 (s.limits length).1 := by
  have hgreatest : Int64.maxValue.toInt = 0x8000000000000000 - 1 := by decide
  have hmin : min Int64.maxValue.toInt (length : Int) = length := by omega
  unfold places
  simp only [hmin, if_neg hstride]

theorem places_forwards {s : Slice} {length : Nat} (hlength : length < 0x8000000000000000)
    (hstride : 0 < s.stride.toInt) :
    (s.places length).map Int.ofNat = s.standardPlaces length := by
  have hrange : InRange length := inRange_iff.mpr (by omega)
  have hne : s.stride ≠ 0 := by
    rintro hzero
    simp [hzero] at hstride
  rw [places_eq_walk hlength hne, limits_forwards s hstride (by omega) hrange]
  have hstop : InRange (min (length : Int) (max 0 (s.countedStop length))) := by
    rw [inRange_iff] at hrange ⊢
    omega
  rw [walk_upwards hstride hstop (by omega)]
  simp only [standardPlaces, standardBound, if_pos hstride, clamped]
  have hsame : max 0 (min (length : Int) (s.countedStop length)) =
      min (length : Int) (max 0 (s.countedStop length)) := by omega
  rw [hsame]
  by_cases hinside : s.countedStart length ≤ length
  · have hstart : min (length : Int) (s.countedStart length) = s.countedStart length := by omega
    rw [hstart]
  · -- behind the array, it does not matter how far
    rw [upwards_eq_nil (by omega), upwards_eq_nil (by omega)]

/-- What is known of a slice that goes backwards: its walk, and that of the standard. -/
theorem places_downwards {s : Slice} {length : Nat} (hlength : length < 0x8000000000000000)
    (hstride : s.stride.toInt < 0) :
    (s.places length).map Int.ofNat = downwards (-s.stride.toInt)
      (max (-1) (s.countedStop length)) (min (length - 1) (max 0 (s.countedStart length))) := by
  have hrange : InRange length := inRange_iff.mpr (by omega)
  have hne : s.stride ≠ 0 := by
    rintro hzero
    simp [hzero] at hstride
  rw [places_eq_walk hlength hne, limits_backwards s (by omega) (by omega) hrange]
  have hstart : InRange (min ((length : Int) - 1) (max 0 (s.countedStart length))) := by
    rw [inRange_iff] at hrange ⊢
    omega
  exact walk_downwards hstride (by omega) hstart

theorem standardPlaces_downwards {s : Slice} (hstride : s.stride.toInt < 0) :
    s.standardPlaces length = downwards (-s.stride.toInt)
      (max (-1) (min (length - 1) (s.countedStop length)))
      (max (-1) (min (length - 1) (s.countedStart length))) := by
  have hnot : ¬0 < s.stride.toInt := by omega
  simp only [standardPlaces, standardBound, if_neg hnot, clamped]

theorem places_backwards {s : Slice} {length : Nat} (hlength : length < 0x8000000000000000)
    (hstride : s.stride.toInt < 0) (h : ¬s.Overshoots length) :
    (s.places length).map Int.ofNat = s.standardPlaces length := by
  rw [overshoots_iff s (by omega)] at h
  rw [places_downwards hlength hstride, standardPlaces_downwards hstride]
  by_cases hreached : s.countedStop length < length
  · have hstop : max (-1) (min ((length : Int) - 1) (s.countedStop length)) =
        max (-1) (s.countedStop length) := by omega
    rw [hstop]
    by_cases hbefore : s.countedStart length < 0
    · -- it starts before the front, and stops before the first place or in an empty array
      rw [downwards_eq_nil (by omega), downwards_eq_nil (by omega)]
    · have hstart : max (-1) (min ((length : Int) - 1) (s.countedStart length)) =
          min ((length : Int) - 1) (max 0 (s.countedStart length)) := by omega
      rw [hstart]
  · rw [downwards_eq_nil (by omega), downwards_eq_nil (by omega)]

/-- Brought to the front, the start of such a slice is a place of its own. -/
theorem places_of_overshoots {s : Slice} {length : Nat} (hlength : length < 0x8000000000000000)
    (h : s.Overshoots length) : s.places length = [0] ∧ s.standardPlaces length = [] := by
  obtain ⟨hstride, hpos, hstart, hstop⟩ := (overshoots_iff s (by omega)).mp h
  have hfront : min ((length : Int) - 1) (max 0 (s.countedStart length)) = 0 := by omega
  have hbeyond : max (-1) (s.countedStop length) = -1 := by omega
  constructor
  · have hplaces := places_downwards hlength hstride
    rw [hfront, hbeyond, downwards, if_pos (by omega), downwards_eq_nil (by omega)] at hplaces
    exact List.map_injective_iff.mpr (fun _ _ => Int.ofNat.inj) hplaces
  · rw [standardPlaces_downwards hstride, downwards_eq_nil (by omega)]

/-- **A slice takes the places of the standard**, in either direction and whatever its bounds
are, unless it goes backwards from before the front and does not stop there; then it takes
the first place, and by the standard none. -/
theorem places_standard_iff (s : Slice) (length : Nat) (hlength : length < 0x8000000000000000)
    (hstride : s.stride ≠ 0) :
    ((s.places length).map Int.ofNat = s.standardPlaces length ↔ ¬s.Overshoots length) ∧
      (s.Overshoots length → s.places length = [0] ∧ s.standardPlaces length = []) := by
  refine ⟨⟨fun hsame hover => ?_, fun h => ?_⟩, places_of_overshoots hlength⟩
  · obtain ⟨hplaces, hstandard⟩ := places_of_overshoots hlength hover
    simp [hplaces, hstandard] at hsame
  · have hne : s.stride.toInt ≠ 0 := fun hzero => hstride (Int64.toInt_inj.mp hzero)
    by_cases hforwards : 0 < s.stride.toInt
    · exact places_forwards hlength hforwards
    · exact places_backwards hlength (by omega) h

/-- A slice that goes backwards, from behind an array of five to before its second place. -/
theorem places_standard_backwards : 5 < 0x8000000000000000 ∧
    (⟨some 9, some (-4), some (-2)⟩ : Slice).stride ≠ 0 ∧
    (⟨some 9, some (-4), some (-2)⟩ : Slice).places 5 = [4, 2] ∧
    (⟨some 9, some (-4), some (-2)⟩ : Slice).standardPlaces 5 = [4, 2] := by
  have hlength : 5 < 0x8000000000000000 := by decide
  have hstride : (⟨some 9, some (-4), some (-2)⟩ : Slice).stride ≠ 0 := by decide
  have hplaces : (⟨some 9, some (-4), some (-2)⟩ : Slice).places 5 = [4, 2] := by decide +kernel
  have hsame := (places_standard_iff _ 5 hlength hstride).1.mpr (by decide)
  exact ⟨hlength, hstride, hplaces, hsame.symm.trans (congrArg _ hplaces)⟩

/-- Nine places before the end of an array of five there is no place, but the slice takes the
first one. -/
theorem places_overshooting :
    (⟨some (-9), none, some (-1)⟩ : Slice).places 5 = [0] ∧
      (⟨some (-9), none, some (-1)⟩ : Slice).standardPlaces 5 = [] := by
  decide +kernel

end Slice
end PathQuery
