import Mathlib.Tactic.SplitIfs
import PathQuery.Json.Texts

/-! # Pretty texts of arrays

Every writer only adds to the text that it is given (`Json.Extends`).  So the pretty text of an
array starts with the line break before its first element, if there is one, and nothing but the
empty array is written `[]` (`Json.pretty_array_eq_nil_iff`), as is asked of JSON texts
(`JsonTexts.standard_lawful`).
-/

namespace PathQuery
namespace Json

/-- A text goes on from another one. -/
structure Extends (out text : String) : Prop where
  /-- Its characters come first. -/
  start : out.toList <+: text.toList

namespace Extends

variable {out text more : String}

theorem refl (out : String) : Extends out out :=
  ⟨List.prefix_rfl⟩

theorem trans (h : Extends out text) (hmore : Extends text more) : Extends out more :=
  ⟨h.start.trans hmore.start⟩

theorem append (h : Extends out text) (more : String) : Extends out (text ++ more) := by
  refine h.trans ⟨?_⟩
  rw [String.toList_append]
  exact List.prefix_append _ _

theorem push (h : Extends out text) (c : Char) : Extends out (text.push c) := by
  refine h.trans ⟨?_⟩
  rw [String.toList_push]
  exact List.prefix_append _ _

/-- Steps that only add to a text add to it one after the other. -/
theorem foldl {α : Type} {step : String → α → String}
    (hstep : ∀ text a, Extends text (step text a)) (h : Extends out text) (xs : List α) :
    Extends out (xs.foldl step text) := by
  induction xs generalizing text with
  | nil => exact h
  | cons x xs ih => exact ih (h.trans (hstep text x))

theorem char (out : String) (c : Char) : Extends out (writeChar out c) := by
  have hself := refl out
  unfold writeChar
  split_ifs
  all_goals first
    | exact hself.append _
    | exact ((hself.append _).push _).push _
    | exact hself.push c

theorem string (h : Extends out text) (written : String) :
    Extends out (writeString text written) :=
  (foldl char (h.push '"') written.toList).push '"'

theorem line (h : Extends out text) (level : Nat) : Extends out (writeLine text level) :=
  foldl (fun text space => (refl text).append space) (h.push '\n') _

variable [DoubleText]

theorem atom (h : Extends out text) (v : Json) : Extends out (writeAtom text v) := by
  cases v with
  | string written => exact h.string written
  | bool b => cases b <;> exact h.append _
  | null | number | array | object => exact h.append _

mutual

theorem pretty {out text : String} (h : Extends out text) (level : Nat) (v : Json) :
    Extends out (writePretty text level v) := by
  match v with
  | .null | .bool _ | .number _ | .string _ | .array [] | .object [] =>
    simp only [writePretty]
    exact h.atom _
  | .array (v :: rest) =>
    have hfirst := pretty ((h.push '[').line (level + 1)) (level + 1) v
    simp only [writePretty]
    exact ((prettyItems hfirst (level + 1) rest).line level).push ']'
  | .object ((key, v) :: rest) =>
    have hkey := (((h.push '\x7b').line (level + 1)).string key).append ": "
    have hfirst := pretty hkey (level + 1) v
    simp only [writePretty]
    exact ((prettyMembers hfirst (level + 1) rest).line level).push '\x7d'

theorem prettyItems {out text : String} (h : Extends out text) (level : Nat) (items : List Json) :
    Extends out (writePrettyItems text level items) := by
  match items with
  | [] => rwa [writePrettyItems]
  | v :: rest =>
    rw [writePrettyItems]
    exact prettyItems (pretty ((h.push ',').line level) level v) level rest

theorem prettyMembers {out text : String} (h : Extends out text) (level : Nat)
    (members : List (String × Json)) :
    Extends out (writePrettyMembers text level members) := by
  match members with
  | [] => rwa [writePrettyMembers]
  | (key, v) :: rest =>
    have hkey := (((h.push ',').line level).string key).append ": "
    rw [writePrettyMembers]
    exact prettyMembers (pretty hkey level v) level rest

end

end Extends

/-- The first element of an array stands on a line of its own. -/
theorem pretty_array_cons [DoubleText] (v : Json) (rest : List Json) :
    Extends "[\n  " (pretty (.array (v :: rest))) := by
  have hstart : writeLine ("".push '[') 1 = "[\n  " := by decide
  have hfirst := (Extends.refl (writeLine ("".push '[') 1)).pretty 1 v
  rw [pretty, writePretty, ← hstart]
  exact ((hfirst.prettyItems 1 rest).line 0).push ']'

theorem pretty_array_eq_nil_iff [DoubleText] (items : List Json) :
    pretty (.array items) = "[]" ↔ items = [] := by
  constructor
  · intro h
    cases items with
    | nil => rfl
    | cons v rest =>
      have hstart := (pretty_array_cons v rest).start
      rw [h] at hstart
      exact absurd hstart (by decide)
  · rintro rfl
    rfl

end Json

theorem JsonTexts.standard_lawful [DoubleText] : JsonTexts.standard.Lawful where
  prints v := ⟨v.pretty, rfl⟩
  empty values := by
    rw [standard, Except.ok.injEq]
    exact Json.pretty_array_eq_nil_iff values

end PathQuery
