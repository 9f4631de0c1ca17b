import Stencil.Search
import Stencil.Text.Basic
/-!
# Separators

`split` cuts a text at every occurrence of a separator, from left to right and without overlap, and
`join` puts pieces together again with a separator between them. `replace` puts another text in the
place of every such occurrence.

Both run along the text once. After an occurrence they skip the rest of it, which is what `skip`
counts; pieces and characters are collected newest first, so that long texts take no stack.
-/

namespace Stencil.Text

/-- The cut in progress: characters of a separator still to skip, the current piece and the
finished pieces, both newest first. -/
def splitLoop (sep : Text) (skip : Nat) (piece : Text) (done : List Text) : Text → List Text
  | [] => (piece.reverse :: done).reverse
  | c :: cs =>
    match skip with
    | n + 1 => splitLoop sep n piece done cs
    | 0 =>
      if sep.isPrefixOf (c :: cs) then splitLoop sep (sep.length - 1) [] (piece.reverse :: done) cs
      else splitLoop sep 0 (c :: piece) done cs

/-- The pieces of a text between the occurrences of a separator. An empty separator cuts nowhere. -/
def split (sep t : Text) : List Text :=
  if sep.isEmpty then [t] else splitLoop sep 0 [] [] t

def join (sep : Text) (pieces : List Text) : Text := sep.intercalate pieces

/-- The replacement in progress: characters of `old` still to skip, and what is written so far, newest
first. -/
def replaceLoop (old new : Text) (skip : Nat) (done : Text) : Text → Text
  | [] => done.reverse
  | c :: cs =>
    match skip with
    | n + 1 => replaceLoop old new n done cs
    | 0 =>
      if old.isPrefixOf (c :: cs) then
        replaceLoop old new (old.length - 1) (new.reverse ++ done) cs
      else replaceLoop old new 0 (c :: done) cs

/-- The text with every occurrence of `old` replaced by `new`. The empty text occurs nowhere. -/
def replace (old new t : Text) : Text :=
  if old.isEmpty then t else replaceLoop old new 0 [] t

def contains (sep t : Text) : Bool := (Search.first? sep.isPrefixOf t).isSome

/-- The lines of a text. A line ends at a line feed, which belongs to no line, nor does a carriage
return before it; after the last line feed there is a further line only if it has characters. -/
def lines (t : Text) : List Text :=
  let pieces := split ['\n'] t
  let ended := pieces.dropLast.map fun l =>
    if l.getLast? = some '\r' then l.dropLast else l
  match pieces.getLast? with
  | none | some [] => ended
  | some l => ended ++ [l]

end Stencil.Text
