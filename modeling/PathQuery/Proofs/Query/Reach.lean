import Mathlib.Computability.Language
import PathQuery.Proofs.Query.PreOrder

/-! # Matches that lie at the end of a way

A set of ways through a document is a language, whose letters are keys and indexes.
`Match.Reaches` takes it to matches, and a product of languages to matches one after the
other (`Match.reaches_mul_iff`).  Children are reached by one letter, and descendants by
the letters of any word that is not empty; a deep scan for a key keeps the words that end
in it.
-/

namespace PathQuery

/-- The elements that a key test stands for. -/
def KeyTest.language : KeyTest → Language Accessor
  | .name key => {[.key key]}
  | .any => {l | l.length = 1}

/-! ## Reaching a match from a match -/

namespace Match

/-- The second match lies below the first, at the end of a way of the language. -/
def Reaches (language : Language Accessor) (m found : Match) : Prop :=
  ∃ l ∈ language, ∃ v, m.value.valueAt? l = some v ∧ found = ⟨m.location ++ l, v⟩

variable {m found : Match} {language : Language Accessor}

theorem Reaches.distinctKeys (h : m.Reaches language found) (hd : m.value.DistinctKeys) :
    found.value.DistinctKeys := by
  obtain ⟨l, _, v, hv, rfl⟩ := h
  exact hd.of_valueAt? hv

theorem reaches_one_iff : m.Reaches 1 found ↔ found = m := by
  constructor
  · rintro ⟨l, hl, v, hv, rfl⟩
    obtain rfl : l = [] := hl
    obtain rfl := Option.some.inj hv
    simp
  · rintro rfl
    exact ⟨[], rfl, found.value, rfl, by simp⟩

/-- A way through two languages is a way through the first and then one through the second. -/
theorem reaches_mul_iff {first second : Language Accessor} :
    m.Reaches (first * second) found ↔ ∃ between, m.Reaches first between ∧
      between.Reaches second found := by
  constructor
  · rintro ⟨l, hl, v, hv, rfl⟩
    obtain ⟨l₁, hl₁, l₂, hl₂, rfl⟩ := Language.mem_mul.mp hl
    rw [Json.valueAt?_append] at hv
    obtain ⟨u, hu, hv⟩ := Option.bind_eq_some_iff.mp hv
    refine ⟨⟨m.location ++ l₁, u⟩, ⟨l₁, hl₁, u, hu, rfl⟩, l₂, hl₂, v, hv, ?_⟩
    rw [List.append_assoc]
  · rintro ⟨between, ⟨l₁, hl₁, u, hu, rfl⟩, l₂, hl₂, v, hv, rfl⟩
    refine ⟨l₁ ++ l₂, Language.mem_mul.mpr ⟨l₁, hl₁, l₂, hl₂, rfl⟩, v, ?_, ?_⟩
    · rw [Json.valueAt?_append, hu, Option.bind_some, hv]
    · rw [List.append_assoc]

theorem reaches_add_iff {first second : Language Accessor} :
    m.Reaches (first + second) found ↔ m.Reaches first found ∨ m.Reaches second found := by
  simp only [Reaches, Language.mem_add]
  constructor
  · rintro ⟨l, hl | hl, hv⟩
    · exact Or.inl ⟨l, hl, hv⟩
    · exact Or.inr ⟨l, hl, hv⟩
  · rintro (⟨l, hl, hv⟩ | ⟨l, hl, hv⟩)
    · exact ⟨l, Or.inl hl, hv⟩
    · exact ⟨l, Or.inr hl, hv⟩

theorem not_reaches_zero : ¬ m.Reaches 0 found := by
  rintro ⟨l, hl, -⟩
  exact Language.notMem_zero l hl

end Match

/-- A list of matches is just what is reached from the matches of another one. -/
def Match.Covers (language : Language Accessor) (starts found : List Match) : Prop :=
  ∀ m, m ∈ found ↔ ∃ start ∈ starts, start.Reaches language m

namespace Match.Covers

variable {starts between found : List Match} {first second : Language Accessor}

theorem one (starts : List Match) : Match.Covers 1 starts starts := by
  intro m
  simp [Match.reaches_one_iff]

theorem mul (h₁ : Match.Covers first starts between) (h₂ : Match.Covers second between found) :
    Match.Covers (first * second) starts found := by
  intro m
  rw [h₂ m]
  constructor
  · rintro ⟨b, hb, hreach⟩
    obtain ⟨start, hstart, hb⟩ := (h₁ b).mp hb
    exact ⟨start, hstart, Match.reaches_mul_iff.mpr ⟨b, hb, hreach⟩⟩
  · rintro ⟨start, hstart, hreach⟩
    obtain ⟨b, hb, hreach⟩ := Match.reaches_mul_iff.mp hreach
    exact ⟨b, (h₁ b).mpr ⟨start, hstart, hb⟩, hreach⟩

theorem distinctKeys (h : Match.Covers first starts found)
    (hd : ∀ m ∈ starts, m.value.DistinctKeys) : ∀ m ∈ found, m.value.DistinctKeys := by
  intro m hm
  obtain ⟨start, hstart, hreach⟩ := (h m).mp hm
  exact hreach.distinctKeys (hd start hstart)

/-- A gathering search covers what each of its searches does. -/
theorem of_gather {ε : Type} {search : Match → Except ε (List Match)}
    (h : gather search starts = .ok found)
    (hsearch : ∀ start ∈ starts, ∀ part, search start = .ok part →
      ∀ m, m ∈ part ↔ start.Reaches first m) : Match.Covers first starts found := by
  intro m
  rw [mem_gather_iff h]
  constructor
  · rintro ⟨start, hstart, part, hpart, hm⟩
    exact ⟨start, hstart, (hsearch start hstart part hpart m).mp hm⟩
  · rintro ⟨start, hstart, hreach⟩
    obtain ⟨part, hpart, -⟩ := exists_of_gather_eq_ok h hstart
    exact ⟨start, hstart, part, hpart, (hsearch start hstart part hpart m).mpr hreach⟩

end Match.Covers

/-! ## Children and descendants -/

namespace Match

variable {m found : Match}

theorem reaches_name_iff {key : String} :
    m.Reaches (KeyTest.name key).language found ↔ m.childByKey? key = some found := by
  rw [childByKey?, Option.map_eq_some_iff]
  constructor
  · rintro ⟨l, hl, v, hv, rfl⟩
    obtain rfl : l = [.key key] := hl
    rw [Json.valueAt?] at hv
    obtain ⟨child, hc, hv⟩ := Option.bind_eq_some_iff.mp hv
    obtain rfl := Option.some.inj hv
    exact ⟨child, hc, rfl⟩
  · rintro ⟨v, hv, rfl⟩
    refine ⟨[.key key], rfl, v, ?_, rfl⟩
    show (m.value.getKey? key).bind some = some v
    rw [hv, Option.bind_some]

theorem reaches_any_iff (hd : m.value.DistinctKeys) :
    m.Reaches KeyTest.any.language found ↔ found ∈ m.children := by
  rw [mem_children_iff hd]
  constructor
  · rintro ⟨l, hl, v, hv, rfl⟩
    obtain ⟨a, rfl⟩ := List.length_eq_one_iff.mp hl
    obtain ⟨child, hc, hv⟩ := Option.bind_eq_some_iff.mp hv
    obtain rfl := Option.some.inj hv
    exact ⟨a, child, hc, rfl⟩
  · rintro ⟨a, v, hv, rfl⟩
    refine ⟨[a], rfl, v, ?_, rfl⟩
    rw [Json.valueAt?, hv]
    rfl

theorem mem_top_mul_any_iff {l : Location} :
    l ∈ (⊤ : Language Accessor) * KeyTest.any.language ↔ l ≠ [] := by
  rw [Language.mem_mul]
  constructor
  · rintro ⟨l₁, -, l₂, hl₂, rfl⟩ hnil
    obtain rfl := (List.append_eq_nil_iff.mp hnil).2
    have hone : ([] : Location).length = 1 := hl₂
    simp at hone
  · intro hne
    refine ⟨l.dropLast, trivial, [l.getLast hne], rfl, List.dropLast_append_getLast hne⟩

theorem mem_top_mul_name_iff {l : Location} {key : String} :
    l ∈ (⊤ : Language Accessor) * (KeyTest.name key).language ↔ l.getLast? = some (.key key) := by
  rw [Language.mem_mul, List.getLast?_eq_some_iff]
  constructor
  · rintro ⟨l₁, -, l₂, rfl, rfl⟩
    exact ⟨l₁, rfl⟩
  · rintro ⟨l₁, rfl⟩
    exact ⟨l₁, trivial, [.key key], rfl, rfl⟩

/-- What a deep scan without its start finds below a match. -/
theorem reaches_below_iff {limit : Nat} {all : List Match} (hd : m.value.DistinctKeys)
    (h : m.descendants limit false = .ok all) :
    found ∈ all ↔ m.Reaches (⊤ * KeyTest.any.language) found := by
  rw [mem_descendants_iff hd h]
  constructor
  · rintro ⟨l, v, hne, hv, rfl⟩
    exact ⟨l, mem_top_mul_any_iff.mpr (by simpa using hne), v, hv, rfl⟩
  · rintro ⟨l, hl, v, hv, rfl⟩
    exact ⟨l, v, Or.inr (mem_top_mul_any_iff.mp hl), hv, rfl⟩

/-- What a deep scan finds below a match and at the match itself. -/
theorem reaches_all_iff {limit : Nat} {all : List Match} (hd : m.value.DistinctKeys)
    (h : m.descendants limit true = .ok all) : found ∈ all ↔ m.Reaches ⊤ found := by
  rw [mem_descendants_iff hd h]
  constructor
  · rintro ⟨l, v, -, hv, rfl⟩
    exact ⟨l, trivial, v, hv, rfl⟩
  · rintro ⟨l, -, v, hv, rfl⟩
    exact ⟨l, v, Or.inl rfl, hv, rfl⟩

/-- What a deep scan for a key finds below a match. -/
theorem reaches_named_iff {limit : Nat} {key : String} {all : List Match}
    (hd : m.value.DistinctKeys) (h : m.descendants limit false = .ok all) :
    found ∈ all.filter (fun visited => visited.endsWithKey key) ↔
      m.Reaches (⊤ * (KeyTest.name key).language) found := by
  rw [List.mem_filter, mem_descendants_iff hd h]
  constructor
  · rintro ⟨⟨l, v, hne, hv, rfl⟩, hkey⟩
    refine ⟨l, mem_top_mul_name_iff.mpr ?_, v, hv, rfl⟩
    -- the way is not empty, so the location ends as the way does
    have hne : l ≠ [] := by simpa using hne
    simpa [endsWithKey, List.getLast?_append_of_ne_nil _ hne] using hkey
  · rintro ⟨l, hl, v, hv, rfl⟩
    have hlast := mem_top_mul_name_iff.mp hl
    have hne : l ≠ [] := by
      rintro rfl
      simp at hlast
    refine ⟨⟨l, v, Or.inr hne, hv, rfl⟩, ?_⟩
    simpa [endsWithKey, List.getLast?_append_of_ne_nil _ hne] using hlast

end Match

end PathQuery
