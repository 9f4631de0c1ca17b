import Stencil.Text.Fold
/-!
# Byte offsets

Positions count characters; the world outside counts bytes of UTF-8. `byteOffset` converts a
position, and `byteOffsets` converts all positions of a text at once. Two functions convert back:
`positionAtOrAfter` for the start of a search, which moves on to the next character when the offset
lies inside one, and `positionHolding` for a single offset, which names the character that the byte
belongs to.
-/

namespace Stencil

namespace Text

/-- The number of bytes of the text in UTF-8. -/
def byteLength (t : Text) : Nat := t.foldl (fun n c => n + c.utf8Size) 0

def byteOffset (t : Text) (i : Nat) : Nat := byteLength (t.take i)

/-- The offsets found so far, with those of a rest of the text that begins at offset `n`. -/
def offsetsFrom (n : Nat) (offsets : Array Nat) : Text → Array Nat
  | [] => offsets.push n
  | c :: cs => offsetsFrom (n + c.utf8Size) (offsets.push n) cs

/-- The byte offsets of all positions of a text, that of its end included. -/
def byteOffsets (t : Text) : Array Nat := offsetsFrom 0 #[] t

/-- Bytes are counted on from any number. -/
theorem byteLength_from (t : Text) (n : Nat) :
    t.foldl (fun n c => n + c.utf8Size) n = n + byteLength t := by
  induction t generalizing n with
  | nil => rfl
  | cons c t ih => rw [byteLength, List.foldl_cons, List.foldl_cons, ih, ih (0 + _)]; omega

@[simp] theorem byteOffset_zero (t : Text) : byteOffset t 0 = 0 := by
  simp [byteOffset, byteLength]

theorem byteOffset_cons_succ (c : Char) (t : Text) (i : Nat) :
    byteOffset (c :: t) (i + 1) = c.utf8Size + byteOffset t i := by
  rw [byteOffset, List.take_succ_cons, byteLength, List.foldl_cons, byteLength_from, Nat.zero_add]
  rfl

/-- The offsets of all positions are gathered in one walk, by induction on the text with the
offsets so far. -/
theorem toList_offsetsFrom (t : Text) (n : Nat) (offsets : Array Nat) :
    (offsetsFrom n offsets t).toList =
      offsets.toList ++ (List.range (t.length + 1)).map (n + byteOffset t ·) := by
  induction t generalizing n offsets with
  | nil => simp [offsetsFrom]
  | cons c t ih =>
    rw [offsetsFrom, ih, List.length_cons, List.range_succ_eq_map (n := t.length + 1)]
    simp [byteOffset_cons_succ, Nat.add_assoc, Function.comp_def]

/-- The entry of a position is its byte offset. -/
theorem getElem?_byteOffsets {t : Text} {i : Nat} (h : i ≤ t.length) :
    (byteOffsets t)[i]? = some (byteOffset t i) := by
  have hlist : (byteOffsets t).toList = (List.range (t.length + 1)).map (byteOffset t) := by
    simp [byteOffsets, toList_offsetsFrom]
  rw [← Array.getElem?_toList, hlist, List.getElem?_map, List.getElem?_range (by omega)]
  rfl

/-- The first position whose offset is at least `b`, counting on from position `i` at `offset`. -/
def positionFrom (b i offset : Nat) : Text → Nat
  | [] => if b ≤ offset then i else i + 1
  | c :: cs => if b ≤ offset then i else positionFrom b (i + 1) (offset + c.utf8Size) cs

/-- The first position whose byte offset is at least `b`; past the end if there is none. -/
def positionAtOrAfter (t : Text) (b : Nat) : Nat := positionFrom b 0 0 t

/-- The position of the character that the byte at offset `b` belongs to. -/
def positionHolding (t : Text) (b : Nat) : Nat := positionAtOrAfter t (b + 1) - 1

/-- The span between two byte offsets that lie between characters. -/
def spanOfBytes (t : Text) (start stop : Nat) : Span :=
  ⟨positionAtOrAfter t start, positionAtOrAfter t stop⟩

/-- The byte offset at which a name first stands, at or after the byte offset `start`. The empty
name stands at every offset of the text, also inside a character. -/
def findFoldedByte? (name t : Text) (start : Nat) : Option Nat :=
  if name.isEmpty then
    if start ≤ byteLength t then some start else none
  else (findFolded? name t (positionAtOrAfter t start)).map (byteOffset t)

end Text

end Stencil
