import Stencil.Text.Blank
/-!
# Brackets and slots

`closing?` finds the bracket that balances an opening one, and `slots` cuts the text between two
brackets at the semicolons outside of inner brackets. A slot is trimmed; a slot of blanks alone is
empty and counts, except the last one.
-/

namespace Stencil.Bracket

/-- The position of the bracket that brings the depth back to zero, in a rest that begins at
position `i`. Closing brackets beyond the depth do not take it below zero. -/
def closingFrom (i depth : Nat) : Text → Option Nat
  | [] => none
  | c :: cs =>
    if c = '[' then closingFrom (i + 1) (depth + 1) cs
    else if c = ']' then
      if depth ≤ 1 then some i else closingFrom (i + 1) (depth - 1) cs
    else closingFrom (i + 1) depth cs

/-- The position of the bracket that balances the one at position `i`. -/
def closing? (t : Text) (i : Nat) : Option Nat := closingFrom i 0 (t.drop i)

/-- The cut in progress: the start of the current piece, the position, the depth and the finished
pieces, newest first. -/
def piecesFrom (start i depth : Nat) (done : List Span) : Text → List Span
  | [] => (⟨start, i⟩ :: done).reverse
  | c :: cs =>
    if c = '[' then piecesFrom start (i + 1) (depth + 1) done cs
    else if c = ']' then piecesFrom start (i + 1) (depth - 1) done cs
    else if c = ';' && depth == 0 then piecesFrom (i + 1) (i + 1) depth (⟨start, i⟩ :: done) cs
    else piecesFrom start (i + 1) depth done cs

/-- The pieces of a span between the semicolons outside of brackets. There is at least one. -/
def pieces (t : Text) (s : Span) : List Span := piecesFrom s.start s.start 0 [] (t.slice s)

/-- The spans without the last one if that is empty. -/
def dropEmptyLast (spans : List Span) : List Span :=
  match spans.getLast? with
  | some s => if s.isEmpty then spans.dropLast else spans
  | none => spans

/-- The trimmed slots of a span, `none` for an empty one; an empty last slot is dropped. -/
def slots (t : Text) (s : Span) : List (Option Span) :=
  (dropEmptyLast ((pieces t s).map (Text.trimSpan t))).map fun p =>
    if p.isEmpty then none else some p

end Stencil.Bracket
