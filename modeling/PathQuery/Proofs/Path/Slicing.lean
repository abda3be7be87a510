import PathQuery.Path.Error
import PathQuery.Proofs.Outcome
import PathQuery.Proofs.Text.ByteSlices

/-! # Computations that take slices

A stage of the compiler that works on byte offsets has a result or a fault, or it is stuck
at a slice that cannot be taken.  Such a run is `Safe` if it is not stuck but comes out as
a given computation on characters does, with a good result or with a fault at a boundary
of the source.  A run is safe if its parts are.
-/

namespace PathQuery

/-- A computation that may end in a fault, and is stuck where a slice cannot be taken. -/
abbrev Slicing (α : Type) := ExceptT Fault Option α

namespace Slicing

variable {α β : Type}

/-- The outcome of a computation that takes no slices. -/
def ofOutcome (outcome : Except Fault α) : Slicing α :=
  ExceptT.mk (some outcome)

/-- A stage is given a fragment, which has to be the slice of the source at the offset that
comes with it. -/
def receive (source : List Char) (f : Fragment) : Slicing Unit :=
  ExceptT.mk (if Fragment.slice? ⟨source, 0⟩ f.offset f.stop = some f then some (.ok ()) else none)

/-! A quote that stands behind a character of two bytes is at offset 2. -/

example : receive "é'".toList ⟨"'".toList, 2⟩ = ofOutcome (.ok ()) := rfl
example : receive "é'".toList ⟨"'".toList, 1⟩ = ExceptT.mk none := rfl

/-- The result together with the fact that it is the result. -/
def attach : (x : Slicing α) → Slicing {a // x = ofOutcome (.ok a)}
  | none => ExceptT.mk none
  | some (.error fault) => ofOutcome (.error fault)
  | some (.ok a) => ofOutcome (.ok ⟨a, rfl⟩)

/-- The run is not stuck but comes out as `plain` does, with a good result or with a fault at
a boundary of the source. -/
structure Safe (source : List Char) (run : Slicing α) (plain : Except Fault α)
    (Good : α → Prop) : Prop where
  agrees : run = ofOutcome plain
  fault : ∀ e, plain = .error e → Text.Boundary source e.position
  good : ∀ a, plain = .ok a → Good a

namespace Safe

variable {source : List Char} {run : Slicing α} {plain : Except Fault α} {Good : α → Prop}
  {Best : β → Prop}

theorem pure {a : α} (h : Good a) : Safe source (pure a) (pure a) Good where
  agrees := rfl
  fault := nofun
  good _ hb := Except.ok.inj hb ▸ h

theorem throw {e : Fault} (h : Text.Boundary source e.position) :
    Safe source (throw e) (.error e) Good where
  agrees := rfl
  fault _ he := Except.error.inj he ▸ h
  good := nofun

theorem plain_eq {a : α} (h : Safe source run plain Good) (hrun : run = ofOutcome (.ok a)) :
    plain = .ok a :=
  Option.some.inj (h.agrees.symm.trans hrun)

theorem bind {next : α → Slicing β} {plainNext : α → Except Fault β}
    (h : Safe source run plain Good)
    (hnext : ∀ a, Good a → Safe source (next a) (plainNext a) Best) :
    Safe source (run >>= next) (plain >>= plainNext) Best := by
  obtain ⟨rfl, hfault, hgood⟩ := h
  cases plain with
  | error e => exact throw (hfault e rfl)
  | ok a => exact hnext a (hgood a rfl)

/-- What comes next may ask for the proof that its argument is the result of `run`; it then is
the result of `plain` too. -/
theorem attach {next : {a // run = Slicing.ofOutcome (.ok a)} → Slicing β}
    {plainNext : α → Except Fault β} (h : Safe source run plain Good)
    (hnext : ∀ a : {a // run = Slicing.ofOutcome (.ok a)}, plain = .ok a.1 → Good a.1 →
      Safe source (next a) (plainNext a.1) Best) :
    Safe source (run.attach >>= next) (plain >>= plainNext) Best := by
  obtain ⟨rfl, hfault, hgood⟩ := h
  cases plain with
  | error e => exact throw (hfault e rfl)
  | ok a => exact hnext ⟨a, rfl⟩ rfl (hgood a rfl)

theorem map {g : α → β} (h : Safe source run plain Good) (hg : ∀ a, Good a → Best (g a)) :
    Safe source (g <$> run) (plain.map g) Best := by
  obtain ⟨rfl, hfault, hgood⟩ := h
  cases plain with
  | error e => exact throw (hfault e rfl)
  | ok a => exact pure (hg a (hgood a rfl))

theorem ofOutcome (hfault : ∀ e, plain = .error e → Text.Boundary source e.position)
    (hgood : ∀ a, plain = .ok a → Good a) : Safe source (ofOutcome plain) plain Good :=
  ⟨rfl, hfault, hgood⟩

/-- A slice that can be taken does not stop a run. -/
theorem slice {o : Option α} {a : α} {next : α → Slicing β} {plain : Except Fault β}
    (ho : o = some a) (h : Safe source (next a) plain Best) :
    Safe source (liftM o >>= next) plain Best := by
  obtain ⟨hagrees, hfault, hgood⟩ := h
  refine ⟨?_, hfault, hgood⟩
  rw [ho, ← hagrees]
  rfl

theorem slice_attach {o : Option α} {a : α} {next : {a // o = some a} → Slicing β}
    {plain : Except Fault β} (ho : o = some a) (h : Safe source (next ⟨a, ho⟩) plain Best) :
    Safe source (liftM o.attach >>= next) plain Best := by
  subst ho
  exact slice rfl h

/-- A stage may be given a fragment of the source. -/
theorem receive {f : Fragment} {next : Unit → Slicing β} {plain : Except Fault β}
    (hf : f.Within source) (h : Safe source (next ()) plain Best) :
    Safe source (receive source f >>= next) plain Best := by
  obtain ⟨hagrees, hfault, hgood⟩ := h
  refine ⟨?_, hfault, hgood⟩
  rw [Slicing.receive, if_pos (Fragment.within_iff_slice?.mp hf), ← hagrees]
  rfl

theorem mapM {items : List α} {each : α → Slicing β} {plainEach : α → Except Fault β}
    (h : ∀ a ∈ items, Safe source (each a) (plainEach a) Best) :
    Safe source (items.mapM each) (items.mapM plainEach) fun found => ∀ b ∈ found, Best b := by
  induction items with
  | nil => exact pure (by simp)
  | cons a rest ih =>
    rw [List.forall_mem_cons] at h
    rw [List.mapM_cons, List.mapM_cons]
    refine (h.1).bind fun b hb => (ih h.2).bind fun later hlater => pure ?_
    exact List.forall_mem_cons.mpr ⟨hb, hlater⟩

theorem mapM_attach {items : List α} {each : {a // a ∈ items} → Slicing β}
    {plainEach : α → Except Fault β}
    (h : ∀ a (ha : a ∈ items), Safe source (each ⟨a, ha⟩) (plainEach a) Best) :
    Safe source (items.attach.mapM each) (items.mapM plainEach) fun found =>
      ∀ b ∈ found, Best b := by
  have hplain : items.mapM plainEach = items.attach.mapM fun a => plainEach a.1 := by simp
  rw [hplain]
  exact mapM fun a _ => h a.1 a.2

end Safe
end Slicing
end PathQuery
