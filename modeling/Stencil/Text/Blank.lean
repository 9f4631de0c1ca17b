import Stencil.Text.Basic
/-!
# White space

A character is blank when it has the Unicode property White_Space. Trimming takes blank characters
off the ends of a text (`trim`) or of a span of it (`trimSpan`); both leave inner blanks alone.
-/

namespace Stencil

/-- Whether a character has the Unicode property White_Space. -/
def isBlank (c : Char) : Bool :=
  let n := c.toNat
  (9 ≤ n && n ≤ 13) || n == 0x20 || n == 0x85 || n == 0xA0 || n == 0x1680 ||
    (0x2000 ≤ n && n ≤ 0x200A) || n == 0x2028 || n == 0x2029 || n == 0x202F || n == 0x205F ||
    n == 0x3000

/-- Every white-space character of the ASCII range is blank. -/
theorem isBlank_of_isWhitespace {c : Char} (h : c.isWhitespace = true) : isBlank c = true := by
  simp only [Char.isWhitespace, Bool.or_eq_true, decide_eq_true_eq] at h
  rcases h with (((rfl | rfl) | rfl) | rfl) <;> decide

namespace Text

/-- Whether a text has no character but blanks. -/
def isBlankText (t : Text) : Bool := t.all isBlank

def trimStart (t : Text) : Text := t.dropWhile isBlank

def trimEnd (t : Text) : Text := (t.reverse.dropWhile isBlank).reverse

def trim (t : Text) : Text := trimEnd (trimStart t)

/-- The span without the blanks at its ends. A span of blanks alone shrinks to its start. -/
def trimSpan (t : Text) (s : Span) : Span :=
  let piece := t.slice s
  let lead := (piece.takeWhile isBlank).length
  let tail := (piece.reverse.takeWhile isBlank).length
  if lead = piece.length then ⟨s.start, s.start⟩ else ⟨s.start + lead, s.stop - tail⟩

end Text

end Stencil
