import Stencil.Text.ByteRank
import Stencil.Text.Fold
/-!
# Landmarks

A search for names leaps over text in which none can begin. It looks for landmarks: at most three
bytes, without regard to case, of which every name contains one. The first bytes of the names may
serve, or for each name the rarest byte in it. Where a landmark stands, a name begins no further
before it than the byte stands behind the start of some name, and that is where the search begins
to read (`Landmarks.start?`). A text without a landmark is not read at all.
-/

namespace Stencil.Worklist

structure Landmarks where
  bytes : List UInt8
  /-- How far before a landmark a name may begin. -/
  reach : UInt8 → Nat

namespace Landmarks

/-- More landmarks than this are not looked for. -/
def limit : Nat := 3

/-- The longest name in which landmarks are looked for. -/
def nameLimit : Nat := 255

/-- A set of bytes with one more in both its cases. -/
def insertCases (bytes : List UInt8) (b : UInt8) : List UInt8 :=
  if bytes.contains b then bytes
  else if Text.otherCase b = b then b :: bytes
  else b :: Text.otherCase b :: bytes

/-- The first bytes of the names. -/
def firstBytes (names : List (List UInt8)) : List UInt8 :=
  (names.filterMap (·.head?)).foldl insertCases []

/-- The byte of the lowest rank; of equal ones the first. -/
def rarest? (name : List UInt8) : Option UInt8 :=
  name.foldl
    (fun best b => if best.all (Text.byteRank b < Text.byteRank ·) then some b else best)
    none

/-- For each name a byte that is a landmark already, or else its rarest byte. -/
def rareBytes (names : List (List UInt8)) : List UInt8 :=
  names.foldl
    (fun bytes name =>
      if name.any bytes.contains then bytes else (rarest? name).toList.foldl insertCases bytes)
    []

/-- How far behind the start of a name the byte stands at most, in either case. -/
def depth (names : List (List UInt8)) (b : UInt8) : Nat :=
  names.foldl
    (fun d name =>
      name.zipIdx.foldl
        (fun d (c, i) => if c = b || c = Text.otherCase b then max d i else d) d)
    0

def rankSum (bytes : List UInt8) : Nat := bytes.foldl (fun n b => n + Text.byteRank b) 0

/-- The landmarks of names. First bytes are easier to use, so they need not be quite as rare as the
rarest ones. -/
def ofNames? (names : List (List UInt8)) : Option Landmarks :=
  let firsts := firstBytes names
  let rares := rareBytes names
  let firstsServe := firsts.length ≤ limit && firsts.all (· < 0x80)
  let raresServe := rares.length ≤ limit && names.all (·.length ≤ nameLimit)
  let firstsPreferred := firsts.length < rares.length || rankSum firsts ≤ rankSum rares + 50
  if firstsServe && (!raresServe || firstsPreferred) then some ⟨firsts, fun _ => 0⟩
  else if raresServe then some ⟨rares, depth names⟩
  else none

/-- The offset at which a search for the names in a text begins to read, if it does. -/
def start? (names : List (List UInt8)) (text : List UInt8) : Option Nat :=
  match ofNames? names with
  | none => some 0
  | some marks =>
    (text.zipIdx.find? fun (b, _) => marks.bytes.contains b).map fun (b, i) => i - marks.reach b

end Landmarks

end Stencil.Worklist
