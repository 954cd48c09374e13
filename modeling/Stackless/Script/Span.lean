/-!
# Spans

Where in a script something stands.
-/

namespace Stackless

/-- A range of characters on one line. -/
structure Span where
  line : Nat := 0
  column : Nat := 0
  length : Nat := 0
  deriving DecidableEq, Repr, Inhabited

namespace Span

/-- A span without characters. -/
def point (line column : Nat) : Span := ⟨line, column, 0⟩

def isEmpty (s : Span) : Bool := s.length == 0

/-- The start of `t` lies in `s`; an empty span counts as one character wide. -/
def contains (s t : Span) : Bool :=
  s.line == t.line && s.column ≤ t.column && t.column < s.column + max s.length 1

/-- Spans are ordered by line, then column, then length. -/
def compare (s t : Span) : Ordering :=
  (Ord.compare s.line t.line).then
    ((Ord.compare s.column t.column).then (Ord.compare s.length t.length))

/-- The text of a location: line and column. -/
def text (s : Span) : String := toString s.line ++ ":" ++ toString s.column

end Span

end Stackless
