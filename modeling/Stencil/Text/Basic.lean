/-!
# Text, spans and positions

A text is a list of characters, and a position is the number of characters before it. A `Span` is a
half-open range of positions; `Text.slice` reads it out of a text.
-/

namespace Stencil

abbrev Text := List Char

/-- A half-open range of positions. -/
structure Span where
  start : Nat
  stop : Nat
deriving DecidableEq, Repr

namespace Span

def isEmpty (s : Span) : Bool := s.stop ≤ s.start

end Span

namespace Text

/-- The text as a string, for output. -/
def string (t : Text) : String := String.ofList t

/-- The part of a text that a span covers. -/
def slice (t : Text) (s : Span) : Text := (t.drop s.start).take (s.stop - s.start)

theorem slice_all (t : Text) : slice t ⟨0, t.length⟩ = t := by
  simp [slice]

theorem length_slice (t : Text) (s : Span) :
    (slice t s).length = min (s.stop - s.start) (t.length - s.start) := by
  simp [slice]

end Text

end Stencil
