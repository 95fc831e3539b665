set_option autoImplicit false

/-!
# Spans

Every node of a program remembers the byte range it was read from. Offsets count
the bytes of the UTF-8 form of the text.
-/

namespace LogLabel.Program

/-- Byte range of a node in its source text. -/
structure Span where
  start : Nat
  stop : Nat
deriving DecidableEq, Inhabited

/-- The span from the start of one node to the end of another. -/
def Span.cover (first last : Span) : Span := ⟨first.start, last.stop⟩

/-- Number of bytes an error marks for this span: an empty span still marks one byte. -/
def Span.marked (s : Span) : Nat :=
  if s.start < s.stop then s.stop - s.start else 1

end LogLabel.Program
