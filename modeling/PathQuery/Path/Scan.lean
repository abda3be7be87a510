import PathQuery.Path.Error

/-! # Scanning a path

Every stage of compiling looks at a fragment through the same scanner.  It walks
over the characters and keeps track of quotes, backslash escapes, open brackets
and, if asked to, open parentheses.  A character is *plain* if it is neither
quoted nor a quote, neither escaped nor a backslash; only plain characters have a
meaning to the stages that split a text.

`scan` marks each character with what the scanner knows after it, up to the first
fault: a closing bracket that closes nothing, or, at the end, something that was
left open.  The stages work on the marks, and a fault of their own counts before
the scanner's, since the marks end where the scanner's fault is.
-/

namespace PathQuery

/-- What the scanner knows between two characters. -/
structure ScanState where
  /-- The open quote and where it stands. -/
  quote : Option (Char × Nat)
  /-- The backslash that escapes the next character. -/
  escape : Option Nat
  /-- The open brackets, the innermost first. -/
  brackets : List Nat
  /-- The open parentheses, the innermost first. -/
  parens : List Nat
deriving DecidableEq, Repr

/-- A character with what the scanner knows after it. -/
structure Mark where
  char : Char
  offset : Nat
  plain : Bool
  /-- How many brackets are open. -/
  brackets : Nat
  /-- How many parentheses are open. -/
  parens : Nat
deriving DecidableEq, Repr

/-- A plain character outside all brackets and parentheses. -/
def Mark.isTop (m : Mark) : Bool :=
  m.plain && m.brackets == 0 && m.parens == 0

namespace ScanState

/-- Nothing is open. -/
def initial : ScanState := ⟨none, none, [], []⟩

instance : Inhabited ScanState := ⟨initial⟩

/-- Goes over a plain character; parentheses count only with `grouping`. -/
def stepPlain (grouping : Bool) (s : ScanState) (offset : Nat) (c : Char) :
    Except Fault ScanState :=
  if c = '[' then .ok { s with brackets := offset :: s.brackets }
  else if c = ']' then
    match s.brackets with
    | [] => .error ⟨.unbalanced ']', offset⟩
    | _ :: outer => .ok { s with brackets := outer }
  else if c = '(' ∧ grouping then .ok { s with parens := offset :: s.parens }
  else if c = ')' ∧ grouping then
    match s.parens with
    | [] => .error ⟨.unbalanced ')', offset⟩
    | _ :: outer => .ok { s with parens := outer }
  else .ok s

/-- Goes over one character and says whether it is plain. -/
def step (grouping : Bool) (s : ScanState) (offset : Nat) (c : Char) :
    Except Fault (ScanState × Bool) :=
  match s.escape with
  | some _ => .ok ({ s with escape := none }, false)
  | none =>
    if c = '\\' then .ok ({ s with escape := some offset }, false)
    else
      match s.quote with
      | some (quote, _) => .ok (if c = quote then { s with quote := none } else s, false)
      | none =>
        if c = '\'' ∨ c = '"' then .ok ({ s with quote := some (c, offset) }, false)
        else (s.stepPlain grouping offset c).map fun s => (s, true)

/-- What is still open at the end of a text. -/
def finish (s : ScanState) : Option Fault :=
  match s.quote with
  | some (_, offset) => some ⟨.openQuote, offset⟩
  | none =>
    match s.escape with
    | some offset => some ⟨.danglingEscape, offset⟩
    | none =>
      match s.brackets.reverse with
      | first :: rest => some ⟨.openBrackets (first :: rest), first⟩
      | [] =>
        match s.parens.reverse with
        | first :: _ => some ⟨.openParen, first⟩
        | [] => none

end ScanState

/-- A scanned text: the marks up to the first fault, and that fault. -/
structure Scan where
  marks : List Mark
  fault : Option Fault
deriving DecidableEq

namespace Scan

/-- Scans characters that start at `offset`, from a given state. -/
def run (grouping : Bool) (s : ScanState) (offset : Nat) : List Char → Scan
  | [] => ⟨[], s.finish⟩
  | c :: rest =>
    match s.step grouping offset c with
    | .error fault => ⟨[], some fault⟩
    | .ok (after, plain) =>
      let tail := run grouping after (offset + c.utf8Size) rest
      ⟨⟨c, offset, plain, after.brackets.length, after.parens.length⟩ :: tail.marks, tail.fault⟩

/-- The fault of the scanner as the outcome of a stage. -/
def check (s : Scan) : Except Fault Unit :=
  match s.fault with
  | some fault => .error fault
  | none => .ok ()

theorem length_marks_run_le (grouping : Bool) (text : List Char) (s : ScanState) (offset : Nat) :
    (run grouping s offset text).marks.length ≤ text.length := by
  induction text generalizing s offset with
  | nil => simp [run]
  | cons c rest ih =>
    unfold run
    split
    · simp
    · exact Nat.succ_le_succ (ih _ _)

end Scan

/-- Scans a fragment from a state in which nothing is open. -/
def Fragment.scan (f : Fragment) (grouping : Bool) : Scan :=
  Scan.run grouping .initial f.offset f.text

theorem Fragment.length_marks_scan_le (f : Fragment) (grouping : Bool) :
    (f.scan grouping).marks.length ≤ f.text.length :=
  Scan.length_marks_run_le grouping f.text _ _

end PathQuery
