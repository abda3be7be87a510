import PathQuery.Path.Basic

/-! # Indexes and slices

An index counts from the start of an array, or, if negative, from its end.  The
bounds of a slice are brought into range first; then the slice is walked from one
bound to the other in its stride.  All numbers are integers of 64 bits, and a walk
that would leave them ends.
-/

namespace PathQuery

/-- The place in an array of a given length that an index stands for. -/
def placeOf (position : Int64) (length : Nat) : Option Nat :=
  let i := position.toInt
  if 0 ≤ i then if i.toNat < length then some i.toNat else none
  else if i.natAbs ≤ length then some (length - i.natAbs) else none

namespace Slice

/-- The integers of 64 bits. -/
def InRange (n : Int) : Prop :=
  Int64.minValue.toInt ≤ n ∧ n ≤ Int64.maxValue.toInt

instance (n : Int) : Decidable (InRange n) :=
  inferInstanceAs (Decidable (_ ∧ _))

/-- The sum, if it is an integer of 64 bits. -/
def checkedAdd (a b : Int) : Option Int :=
  if InRange (a + b) then some (a + b) else none

/-- The sum, brought into the integers of 64 bits. -/
def saturatingAdd (a b : Int) : Int :=
  max Int64.minValue.toInt (min Int64.maxValue.toInt (a + b))

/-- A bound counted from the start; one before the start becomes `least`. -/
def fromStart (bound length least : Int) : Int :=
  if 0 ≤ bound then bound else max least (saturatingAdd length bound)

/-- The first and the last bound of a slice, the second one excluded. -/
def limits (s : Slice) (length : Int) : Int × Int :=
  if 0 < s.stride.toInt then
    (max 0 ((s.start.map fun b => fromStart b.toInt length 0).getD 0),
      min length ((s.stop.map fun b => fromStart b.toInt length 0).getD length))
  else
    (min (length - 1) ((s.start.map fun b => fromStart b.toInt length 0).getD (length - 1)),
      max (-1) ((s.stop.map fun b => fromStart b.toInt length (-1)).getD (-1)))

/-- There is something to visit at `i` on the way to `stop`. -/
def Ahead (stride i stop : Int) : Prop :=
  (0 < stride ∧ i < stop) ∨ (stride < 0 ∧ stop < i)

instance (stride i stop : Int) : Decidable (Ahead stride i stop) :=
  inferInstanceAs (Decidable (_ ∨ _))

/-- How far it is from `i` to `stop` in the direction of the stride. -/
def distance (stride i stop : Int) : Nat :=
  if 0 < stride then (stop - i).toNat else (i - stop).toNat

theorem distance_lt {stride i stop next : Int} (ha : Ahead stride i stop)
    (hn : checkedAdd i stride = some next) :
    distance stride next stop < distance stride i stop := by
  unfold checkedAdd at hn
  split at hn
  · simp only [Option.some.injEq] at hn
    unfold Ahead at ha
    unfold distance
    split <;> omega
  · simp at hn

/-- The places from `i` to `stop` in steps of the stride. -/
def walk (stride stop i : Int) : List Nat :=
  if h : Ahead stride i stop then
    let later :=
      match hn : checkedAdd i stride with
      | some next =>
        have := distance_lt h hn
        walk stride stop next
      | none => []
    if 0 ≤ i then i.toNat :: later else later
  else []
termination_by distance stride i stop

/-- The places of a slice in an array of a given length. -/
def places (s : Slice) (length : Nat) : List Nat :=
  let length := min Int64.maxValue.toInt (length : Int)
  if s.stride = 0 then []
  else walk s.stride.toInt (s.limits length).2 (s.limits length).1

/-! A walk in either direction, and one whose bounds lie beyond both ends. -/

example : (⟨some (-3), none, none⟩ : Slice).places 5 = [2, 3, 4] := by decide +kernel
example : (⟨none, none, some (-2)⟩ : Slice).places 5 = [4, 2, 0] := by decide +kernel
example : (⟨some (-9), some 9, some 4⟩ : Slice).places 5 = [0, 4] := by decide +kernel

end Slice
end PathQuery
