import PathQuery.Path.Basic

/-! # Structural equality of paths

Two paths are the same if they have the same nodes, selectors and expressions at
every level; the texts they were compiled from do not count, and numbers are
compared as numbers, so that `0.0` and `-0.0` agree.  The hash of a path looks at
no more than that: of a number it takes the value of an integer and the rank of a
double.
-/

namespace PathQuery

/-- Equality of constants. -/
def Literal.same : Literal → Literal → Bool
  | .null, .null => true
  | .bool a, .bool b => a == b
  | .number a, .number b => a.same b
  | .string a, .string b => a == b
  | _, _ => false

mutual

/-- Equality of paths up to their sources. -/
def Path.same : Path → Path → Bool
  | .mk origin segments steps _, .mk origin' segments' steps' _ =>
    origin == origin' && Segment.sameList segments segments' && Step.sameList steps steps'

/-- Equality of steps. -/
def Step.same : Step → Step → Bool
  | .mk head segments, .mk head' segments' =>
    head == head' && Segment.sameList segments segments'

/-- Equality of lists of steps. -/
def Step.sameList : List Step → List Step → Bool
  | [], [] => true
  | a :: as, b :: bs => Step.same a b && Step.sameList as bs
  | _, _ => false

/-- Equality of segments. -/
def Segment.same : Segment → Segment → Bool
  | .mk selectors, .mk selectors' => Selector.sameList selectors selectors'

/-- Equality of lists of segments. -/
def Segment.sameList : List Segment → List Segment → Bool
  | [], [] => true
  | a :: as, b :: bs => Segment.same a b && Segment.sameList as bs
  | _, _ => false

/-- Equality of selectors. -/
def Selector.same : Selector → Selector → Bool
  | .wildcard, .wildcard => true
  | .index i, .index j => i == j
  | .name a, .name b => a == b
  | .slice a, .slice b => a == b
  | .filter a, .filter b => Filter.same a b
  | _, _ => false

/-- Equality of lists of selectors. -/
def Selector.sameList : List Selector → List Selector → Bool
  | [], [] => true
  | a :: as, b :: bs => Selector.same a b && Selector.sameList as bs
  | _, _ => false

/-- Equality of expressions. -/
def Filter.same : Filter → Filter → Bool
  | .literal a, .literal b => a.same b
  | .reference p, .reference q => Path.same p q
  | .existence p i, .existence q j => Path.same p q && i == j
  | .negation a, .negation b => Filter.same a b
  | .arithmetic op a b, .arithmetic op' a' b' => op == op' && Filter.same a a' && Filter.same b b'
  | .comparison op a b, .comparison op' a' b' => op == op' && Filter.same a a' && Filter.same b b'
  | .logical op a b, .logical op' a' b' => op == op' && Filter.same a a' && Filter.same b b'
  | _, _ => false

end

/-! ## Hashes

The numbers below tell the kinds of things apart that are hashed.
-/

/-- The hash of a number; equal numbers have equal hashes. -/
def Number.hash : Number → UInt64
  | .integer n _ => mixHash 1 (Hashable.hash n)
  | .float x => mixHash 2 (Hashable.hash (x.rank, x.negative && x.rank != 0))

/-- The hash of a constant. -/
def Literal.hash : Literal → UInt64
  | .null => 3
  | .bool b => mixHash 4 (Hashable.hash b)
  | .number n => mixHash 5 n.hash
  | .string s => mixHash 6 (Hashable.hash s)

/-- The hash of what a step goes to. -/
def KeyTest.hash : KeyTest → UInt64
  | .name key => mixHash 7 (Hashable.hash key)
  | .any => 8

/-- The hash of where a step goes. -/
def Head.hash : Head → UInt64
  | .here => 9
  | .child key => mixHash 10 key.hash
  | .descend none => 11
  | .descend (some key) => mixHash 12 key.hash

/-- The hash of a binary operation, given the hashes of its operands. -/
def Operator.hash (op : Operator) (left right : UInt64) : UInt64 :=
  mixHash (Hashable.hash op.symbol) (mixHash left right)

/-- The hash of the bounds of a slice. -/
def Slice.hash (s : Slice) : UInt64 :=
  Hashable.hash (s.start.map Int64.toInt, s.stop.map Int64.toInt, s.step.map Int64.toInt)

mutual

/-- The hash of a path, without its source. -/
def Path.hash : Path → UInt64
  | .mk origin segments steps _ =>
    mixHash (Hashable.hash origin.marker)
      (mixHash (Segment.hashList segments) (Step.hashList steps))

/-- The hash of a step. -/
def Step.hash : Step → UInt64
  | .mk head segments => mixHash head.hash (Segment.hashList segments)

/-- The hash of a list of steps. -/
def Step.hashList : List Step → UInt64
  | [] => 13
  | s :: rest => mixHash (Step.hash s) (Step.hashList rest)

/-- The hash of a segment. -/
def Segment.hash : Segment → UInt64
  | .mk selectors => Selector.hashList selectors

/-- The hash of a list of segments. -/
def Segment.hashList : List Segment → UInt64
  | [] => 14
  | s :: rest => mixHash (Segment.hash s) (Segment.hashList rest)

/-- The hash of a selector. -/
def Selector.hash : Selector → UInt64
  | .wildcard => 15
  | .index i => mixHash 16 (Hashable.hash i.toInt)
  | .name key => mixHash 17 (Hashable.hash key)
  | .slice s => mixHash 18 s.hash
  | .filter f => mixHash 19 (Filter.hash f)

/-- The hash of a list of selectors. -/
def Selector.hashList : List Selector → UInt64
  | [] => 20
  | s :: rest => mixHash (Selector.hash s) (Selector.hashList rest)

/-- The hash of an expression. -/
def Filter.hash : Filter → UInt64
  | .literal l => mixHash 21 l.hash
  | .reference p => mixHash 22 (Path.hash p)
  | .existence p inverted => mixHash 23 (mixHash (Path.hash p) (Hashable.hash inverted))
  | .negation f => mixHash 24 (Filter.hash f)
  | .arithmetic op a b => (Operator.arithmetic op).hash (Filter.hash a) (Filter.hash b)
  | .comparison op a b => (Operator.comparison op).hash (Filter.hash a) (Filter.hash b)
  | .logical op a b => (Operator.logical op).hash (Filter.hash a) (Filter.hash b)

end

instance : BEq Path := ⟨Path.same⟩

instance : Hashable Path := ⟨Path.hash⟩

end PathQuery
