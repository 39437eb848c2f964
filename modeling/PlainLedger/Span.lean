/-!
# Spans

A span is a range of source positions. Lines and columns count from one, and the last column
belongs to the span.
-/

namespace PlainLedger

structure Span where
  firstLine : Nat
  firstColumn : Nat
  lastLine : Nat
  lastColumn : Nat
  deriving DecidableEq, Repr

namespace Span

/-- The span that holds one position only. -/
def point (line column : Nat) : Span := ⟨line, column, line, column⟩

/-- Where a text begins. -/
def start : Span := point 1 1

instance : Inhabited Span := ⟨start⟩

/-- From the first position of one span to the last position of another. -/
def cover (first last : Span) : Span :=
  ⟨first.firstLine, first.firstColumn, last.lastLine, last.lastColumn⟩

/-- What is written as nothing stands at the last position of what precedes it. -/
def endPoint (s : Span) : Span := point s.lastLine s.lastColumn

def isPoint (s : Span) : Bool := s.firstLine == s.lastLine && s.firstColumn == s.lastColumn

@[simp] theorem endPoint_cover (a b : Span) : (cover a b).endPoint = b.endPoint := rfl

end Span

end PlainLedger
