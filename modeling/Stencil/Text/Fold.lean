import Stencil.Search
import Stencil.Text.Basic
/-!
# Letters without case

Names are compared without regard to the case of ASCII letters: `sameFolded` compares two texts,
`startsFolded` asks whether a text begins with a name, and `findFolded?` looks for a name. Every
other character is like itself alone.
-/

namespace Stencil

/-- Whether two characters are equal but for the case of an ASCII letter. -/
def sameLetter (a b : Char) : Bool := a.toLower == b.toLower

namespace Text

def lowerAscii (t : Text) : Text := t.map Char.toLower

/-- The bytes of the text in UTF-8. -/
def bytes (t : Text) : List UInt8 := t.flatMap String.utf8EncodeChar

/-- The bytes of the text, with ASCII letters in lower case. -/
def foldedBytes (t : Text) : List UInt8 := t.lowerAscii.bytes

/-- The byte of an ASCII letter in the other case; every other byte as it is. -/
def otherCase (b : UInt8) : UInt8 :=
  if 0x41 ≤ b && b ≤ 0x5A then b + 0x20 else if 0x61 ≤ b && b ≤ 0x7A then b - 0x20 else b

/-- Whether two texts are equal but for the case of ASCII letters. -/
def sameFolded (a b : Text) : Bool := a.isEqv b sameLetter

/-- Whether the text begins with the name, but for the case of ASCII letters. -/
def startsFolded (name t : Text) : Bool := Search.startsBy sameLetter name t

/-- The first position at or after `start` where the name stands. -/
def findFolded? (name t : Text) (start : Nat) : Option Nat :=
  Search.firstAfter? (startsFolded name) t start

/-- Texts are alike if they are the same after lowering. -/
theorem sameFolded_iff {a b : Text} : sameFolded a b = true ↔ lowerAscii a = lowerAscii b := by
  induction a generalizing b with
  | nil => cases b <;> simp [sameFolded, List.isEqv, lowerAscii]
  | cons x a ih =>
    cases b with
    | nil => simp [sameFolded, List.isEqv, lowerAscii]
    | cons y b =>
      simp only [sameFolded, List.isEqv, Bool.and_eq_true, lowerAscii, List.map_cons,
        List.cons.injEq, sameLetter, beq_iff_eq] at ih ⊢
      rw [ih]

/-- A text begins with a name if as many of its characters are like the name. -/
theorem startsFolded_iff {name t : Text} :
    startsFolded name t = true ↔ lowerAscii (t.take name.length) = lowerAscii name := by
  induction name generalizing t with
  | nil => simp [startsFolded, Search.startsBy, lowerAscii]
  | cons a name ih =>
    cases t with
    | nil => simp [startsFolded, Search.startsBy, lowerAscii]
    | cons b t =>
      simp only [startsFolded, Search.startsBy, Bool.and_eq_true, lowerAscii, List.length_cons,
        List.take_succ_cons, List.map_cons, List.cons.injEq, sameLetter, beq_iff_eq] at ih ⊢
      rw [ih, eq_comm (a := a.toLower)]

end Text

end Stencil
