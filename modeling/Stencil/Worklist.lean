import Stencil.Text.Blank
import Stencil.Text.Fold
import Stencil.Text.Split
import Stencil.Worklist.Landmark
/-!
# Worklists

A worklist names the functions to call, in the order of the calls: line by line, and within a line
from right to left, so that a call inside an argument precedes the call around it. It holds names
and no positions.

Each `$` contributes at most one entry: the longest name that stands there. The text up to the next
`$` or the end of the line decides, and where that is blank nothing stands. The empty name, if it is
among the names, is an entry only where the search is not drawn to another one (`emptyStands`).
-/

namespace Stencil.Worklist

/-- The names that hand control to blocks. -/
def controlNames : List Text := [['$', 'i', 'f'], ['$', 'e', 'n', 'd', 'i', 'f']]

def isControl (name : Text) : Bool := controlNames.any (Text.sameFolded · name)

/-- The names to look for: the given ones, and the control names that are not among them. -/
def withControls (names : List Text) : List Text :=
  names ++ controlNames.filter fun c => !names.any (Text.sameFolded c)

/-- The better of the name found so far and another one that may stand at the head of the text. -/
def longerName? (t : Text) (best : Option Text) (name : Text) : Option Text :=
  if Text.startsFolded name t && best.all (·.length < name.length) then some name else best

/-- The longest of the names with which the text begins; of two equally long ones the first. -/
def longestName? (names : List Text) (t : Text) : Option Text := names.foldl (longerName? t) none

/-- The fold keeps what it began with or one of the names that it has passed. -/
theorem foldl_longerName?_mem {names : List Text} {t name : Text} {best : Option Text}
    (h : names.foldl (longerName? t) best = some name) : best = some name ∨ name ∈ names := by
  induction names generalizing best with
  | nil => exact .inl h
  | cons n names ih =>
    rcases ih h with hn | hmem
    · unfold longerName? at hn
      split at hn
      · exact .inr (by simp_all)
      · exact .inl hn
    · exact .inr (List.mem_cons_of_mem n hmem)

theorem longestName?_mem {names : List Text} {t name : Text}
    (h : longestName? names t = some name) : name ∈ names := by
  rcases foldl_longerName?_mem h with hn | hmem
  · cases hn
  · exact hmem

/-! ### The empty name

The empty name stands everywhere, so where it is listed it would be the entry of every `$` without a
longer one. Yet a search that has begun to read another name does not come back to it, and one that
finds no landmark of a name does not begin. What counts is how the bytes from the `$` on continue
the beginnings of names. -/

/-- The names of at least one character, in bytes and without regard to the case of letters. -/
def spellings (names : List Text) : List (List UInt8) :=
  (names.filter (!·.isEmpty)).map Text.foldedBytes

/-- The longest suffix of the bytes with which one of the spellings begins. -/
def longestBeginning (spellings : List (List UInt8)) : List UInt8 → List UInt8
  | [] => []
  | b :: bs =>
    if spellings.any ((b :: bs).isPrefixOf ·) then b :: bs else longestBeginning spellings bs

/-- Whether the search ends at the empty name. It reads byte by byte and holds the longest suffix of
what it has read that begins a name. It ends at the empty name when it holds nothing any more or has
read everything; it ends without a name when one is complete, or when the byte just read continues
a name and begins none. -/
def reachesEmpty (spellings : List (List UInt8)) (held : List UInt8) : List UInt8 → Bool
  | [] => true
  | b :: bs =>
    match longestBeginning spellings (held ++ [b]) with
    | [] => true
    | held =>
      spellings.any (·.head? = some b) && !spellings.any (·.isSuffixOf held) &&
        reachesEmpty spellings held bs

/-- Whether the empty name is the entry at a `$` at which no other name stands. -/
def emptyStands (names : List Text) (segment : Text) : Bool :=
  match Landmarks.start? (names.map Text.bytes) (Text.bytes ('$' :: segment)) with
  | none => false
  | some i => reachesEmpty (spellings names) [] ((Text.foldedBytes ('$' :: segment)).drop i)

/-! ### Entries -/

/-- The name at a `$`, given the text behind it up to the next one or to the end of the line. -/
def nameBehind? (names : List Text) (segment : Text) : Option Text :=
  if Text.isBlankText segment then none
  else
    (longestName? names ('$' :: segment)).filter fun name =>
      !name.isEmpty || emptyStands names segment

/-- Among names that are not empty the longest one that stands at the `$` is the entry. -/
theorem nameBehind?_of_ne_nil {names : List Text} (h : ∀ name ∈ names, name ≠ [])
    (segment : Text) :
    nameBehind? names segment =
      if Text.isBlankText segment then none else longestName? names ('$' :: segment) := by
  unfold nameBehind?
  split
  · rfl
  · cases hl : longestName? names ('$' :: segment) with
    | none => rfl
    | some name =>
      have hne : name ≠ [] := h name (longestName?_mem hl)
      simp [hne]

/-- The entries of one line, from right to left. -/
def ofLine (names : List Text) (line : Text) : List Text :=
  ((Text.split ['$'] line).drop 1).reverse.filterMap (nameBehind? names)

def ofText (names : List Text) (t : Text) : List Text :=
  (Text.split ['\n'] t).flatMap (ofLine names)

end Stencil.Worklist
