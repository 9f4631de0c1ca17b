import Stencil.Search
import Stencil.Text.Basic
/-!
# Keywords of blocks

Five keywords structure blocks. Their letters match in either case, and the long s `ſ` matches `s`,
as simple case folding has it. Every keyword has one marker `$`, at its start, so two occurrences
never overlap, and one keyword never begins inside another.
-/

namespace Stencil

/-- The keywords of blocks. Two of them include the bracket that opens a condition. -/
inductive Keyword where
  | ifOpen
  | elseIfOpen
  | otherwise
  | endIf
  | endElseIf
deriving DecidableEq, Repr

namespace Keyword

/-- What follows the marker, in lower case. -/
def letters : Keyword → Text
  | ifOpen => ['i', 'f', '[']
  | elseIfOpen => ['e', 'l', 's', 'e', 'i', 'f', '[']
  | otherwise => ['e', 'l', 's', 'e']
  | endIf => ['e', 'n', 'd', 'i', 'f']
  | endElseIf => ['e', 'n', 'd', 'e', 'l', 's', 'e', 'i', 'f']

/-- The keyword as written in lower case. -/
def text (k : Keyword) : Text := '$' :: k.letters

/-- The letter of a keyword that a character stands for. -/
def foldLetter (c : Char) : Char := if c = 'ſ' then 's' else c.toLower

def startsIn (k : Keyword) : Text → Bool
  | '$' :: t => Search.startsBy (fun a c => a == foldLetter c) k.letters t
  | _ => false

def spanAt (k : Keyword) (i : Nat) : Span := ⟨i, i + k.text.length⟩

def find? (k : Keyword) (t : Text) (start : Nat) : Option Span :=
  (Search.firstAfter? k.startsIn t start).map k.spanAt

/-- The occurrences in a rest that begins at position `i`. -/
def findAllFrom (k : Keyword) (i : Nat) : Text → List Span
  | [] => []
  | c :: cs =>
    if k.startsIn (c :: cs) then k.spanAt i :: findAllFrom k (i + 1) cs
    else findAllFrom k (i + 1) cs

def findAll (k : Keyword) (t : Text) : List Span := findAllFrom k 0 t

def findLast? (k : Keyword) (t : Text) : Option Span := (k.findAll t).getLast?

def isPresent (k : Keyword) (t : Text) : Bool := (Search.first? k.startsIn t).isSome

/-- A keyword stands only where the text has its marker. -/
theorem eq_dollar_of_startsIn {k : Keyword} {c : Char} {t : Text} (h : k.startsIn (c :: t) = true) :
    c = '$' := by
  unfold startsIn at h
  split at h
  · next heq => exact (List.cons.inj heq).1
  · cases h

end Keyword

end Stencil
