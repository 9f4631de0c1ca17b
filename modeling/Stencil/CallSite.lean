import Stencil.Bracket
import Stencil.Document.Name
/-!
# Call sites

A name is written with or without an argument list. `CallSite.find` describes its first occurrence
in the source text of a document: what the call covers and where its argument slots are.
-/

namespace Stencil

/-- The first occurrence of a name in a document. -/
inductive CallSite where
  /-- The name does not start in source text. -/
  | absent
  /-- A `$` stands before the name, which makes it plain text. -/
  | escaped (position : Nat)
  /-- The argument list is never closed. -/
  | unterminated (position : Nat)
  /-- The name has no argument list. -/
  | bare (span : Span)
  /-- The name has an argument list with these slots. -/
  | call (span : Span) (slots : List (Option Span))
deriving DecidableEq, Repr

namespace CallSite

def nextMarker? (t : Text) (start : Nat) : Option Nat :=
  Search.firstAfter? (fun rest => rest.head?.any isMarker) t start

/-- The position of the argument list of a name that ends at a position: the next marker, if it is
an opening bracket. -/
def listOpening? (t : Text) (nameEnd : Nat) : Option Nat :=
  (nextMarker? t nameEnd).filter fun i => t[i]? == some '['

def ofPosition (t : Text) (name : Text) (start : Nat) : CallSite :=
  if 0 < start && t[start - 1]? == some '$' then escaped start
  else
    match listOpening? t (start + name.length) with
    | none => bare ⟨start, start + name.length⟩
    | some opening =>
      match Bracket.closing? t opening with
      | none => unterminated start
      | some closing => call ⟨start, closing + 1⟩ (Bracket.slots t ⟨opening + 1, closing⟩)

/-- The first occurrence of a name in a document. -/
def find (d : Document) (name : Text) : CallSite :=
  match d.findName? name 0 with
  | none => absent
  | some start => ofPosition d.text name start

end CallSite

end Stencil
