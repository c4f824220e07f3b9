/-!
# Source positions
-/

namespace Motif

/-- A stretch of source text: byte offsets, and the line and column where it starts, counted from
one. A span without a line says nothing. -/
structure Span where
  start : Nat
  stop : Nat
  line : Nat
  column : Nat
  deriving Repr, DecidableEq, Inhabited

namespace Span

def none : Span := ⟨0, 0, 0, 0⟩

def isNone (s : Span) : Bool := s.line == 0

def merge (s t : Span) : Span :=
  { start := min s.start t.start
    stop := max s.stop t.stop
    line := min s.line t.line
    column := if s.line ≤ t.line then s.column else t.column }

end Span

end Motif
