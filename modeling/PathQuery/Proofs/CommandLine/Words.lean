import PathQuery.CommandLine.Words

/-! # Words that ask for one mode

The reader of the program does what is asked of a reader of arguments
(`CommandLine.readArguments_lawful`): behind two hyphens it takes a path, whatever that looks
like, and an option before them asks for the mode that it is named for.
-/

namespace PathQuery
namespace CommandLine

/-! ## Kinds of words -/

theorem word_end : Word.of "--" = .endOfOptions := by decide

theorem word_paths : Word.of "--paths" = .long "paths" none := by decide

theorem word_exists : Word.of "--exists" = .long "exists" none := by decide

theorem word_remove : Word.of "--remove" = .long "remove" none := by decide

theorem word_set (json : String) : Word.of ("--set=" ++ json) = .long "set" (some json) := by
  have htext : ("--set=" ++ json).toList = '-' :: '-' :: 's' :: 'e' :: 't' :: '=' :: json.toList :=
    String.toList_append
  have htake : ('s' :: 'e' :: 't' :: '=' :: json.toList).takeWhile (· != '=') =
      ['s', 'e', 't'] := by
    simp
  have hdrop : ('s' :: 'e' :: 't' :: '=' :: json.toList).dropWhile (· != '=') =
      '=' :: json.toList := by
    simp
  rw [Word.of, htext]
  simp only [htake, hdrop, String.ofList_toList]

/-! ## Options before the path -/

/-- Behind two hyphens there is the path, whatever it looks like. -/
theorem readWords_end (draft : Draft) (path : String) :
    readWords draft ["--", path] = draft.addPositional path := by
  rw [readWords, word_end]
  exact bind_pure _

/-- One option, which asks for a mode, before the two hyphens. -/
theorem readArguments_option {text name : String} (mode : Mode)
    (h : ∀ rest, readWords {} (text :: rest) = readWords { modes := [(name, mode)] } rest)
    (path : String) : readArguments [text, "--", path] = .ok (mode.onto { path }) := by
  rw [readArguments, h, readWords_end]
  rfl

theorem readWords_flag {text name : String} {mode : Mode} (hword : Word.of text = .long name none)
    (hvalue : Draft.takesValue name = false)
    (hflag : Draft.addFlag {} name = .ok { modes := [(name, mode)] }) (rest : List String) :
    readWords {} (text :: rest) = readWords { modes := [(name, mode)] } rest := by
  rw [readWords.eq_def]
  simp only [hword, hvalue, hflag]
  rfl

theorem readWords_set (json : String) (rest : List String) :
    readWords {} (("--set=" ++ json) :: rest) =
      readWords { modes := [("set", .set json)] } rest := by
  rw [readWords.eq_def]
  simp only [word_set]
  rfl

/-- **The reader of the program does what is asked of a reader of arguments.** -/
theorem readArguments_lawful : ArgumentReader.Lawful readArguments where
  values path := by
    rw [readArguments, readWords_end]
    rfl
  paths := readArguments_option .paths (readWords_flag word_paths rfl rfl)
  exist := readArguments_option .exist (readWords_flag word_exists rfl rfl)
  set json := readArguments_option (.set json) (readWords_set json)
  remove := readArguments_option .remove (readWords_flag word_remove rfl rfl)

end CommandLine
end PathQuery
