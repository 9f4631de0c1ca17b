import Stencil.Numeral.Integer
import Stencil.Text.Basic
/-!
# UTF-8

Bytes are a text if they are characters in UTF-8, one after the other (`decode?`). Where they are
not, `firstFault?` says at which offset the first character breaks off and why: the bytes end too
early, or a byte comes that cannot continue the character. The bytes of the character before that
byte are at fault, or the byte itself where no character begins with it.
-/

namespace Stencil.Utf8

/-- The text that bytes write, if they are UTF-8. -/
def decode? (bytes : ByteArray) : Option Text := (String.fromUTF8? bytes).map String.toList

/-- Why bytes are not UTF-8 from the offset `start` on. -/
inductive Fault where
  /-- The first `length` bytes there are no character, whatever follows. -/
  | invalid (length start : Nat)
  /-- The bytes end within a character. -/
  | incomplete (start : Nat)
deriving DecidableEq, Repr

def Fault.message : Fault → Text
  | invalid length start =>
    "invalid utf-8 sequence of ".toList ++ Numeral.digits length ++ " bytes from index ".toList ++
      Numeral.digits start
  | incomplete start => "incomplete utf-8 byte sequence from index ".toList ++ Numeral.digits start

/-- The bounds of the bytes that follow a first byte, if a character begins with it. The second byte
has closer bounds where others would give a character with a shorter form, a surrogate, or a number
beyond the last code point. -/
def tailBounds? (first : UInt8) : Option (List (UInt8 × UInt8)) :=
  if first < 0x80 then some []
  else if first < 0xC2 then none
  else if first < 0xE0 then some [(0x80, 0xBF)]
  else if first = 0xE0 then some [(0xA0, 0xBF), (0x80, 0xBF)]
  else if first = 0xED then some [(0x80, 0x9F), (0x80, 0xBF)]
  else if first < 0xF0 then some [(0x80, 0xBF), (0x80, 0xBF)]
  else if first = 0xF0 then some [(0x90, 0xBF), (0x80, 0xBF), (0x80, 0xBF)]
  else if first < 0xF4 then some [(0x80, 0xBF), (0x80, 0xBF), (0x80, 0xBF)]
  else if first = 0xF4 then some [(0x80, 0x8F), (0x80, 0xBF), (0x80, 0xBF)]
  else none

/-- The first fault of the bytes to come. The current character begins at the offset `start`; of its
bytes `begun` have been read, and the others must lie within the bounds in `owed`. -/
def faultBehind? (start begun : Nat) (owed : List (UInt8 × UInt8)) : List UInt8 → Option Fault
  | [] => if owed.isEmpty then none else some (.incomplete start)
  | b :: bs =>
    match owed with
    | (low, high) :: bounds =>
      if low ≤ b && b ≤ high then faultBehind? start (begun + 1) bounds bs
      else some (.invalid begun start)
    | [] =>
      match tailBounds? b with
      | some bounds => faultBehind? (start + begun) 1 bounds bs
      | none => some (.invalid 1 (start + begun))

def firstFault? (bytes : ByteArray) : Option Fault := faultBehind? 0 0 [] bytes.toList

end Stencil.Utf8
