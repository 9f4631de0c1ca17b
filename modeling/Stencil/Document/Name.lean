import Stencil.Document.Basic
import Stencil.Text.Offset
/-!
# Names in documents

A name is found where it starts in source text. Its later characters may be literal; that a match
never reaches into a literal is a property of the documents that arise in an evaluation, where every
name begins with a marker and literals hold none.
-/

namespace Stencil.Document

/-- Whether a row of cells does not start with a literal one. -/
def startsInSource : List Cell → Bool
  | (_, .literal) :: _ => false
  | _ => true

def nameAtStart (name : Text) (cs : List Cell) : Bool :=
  startsInSource cs && Search.startsBy (fun a c => sameLetter a c.1) name cs

/-! ### The search along fragments

A name that begins in a source fragment may go on in the fragments behind it. The search passes over
literal fragments as a whole; `findName?_eq` says that it is the search along the cells. -/

/-- Whether the name stands at the start of a text that the fragments continue. -/
def startsBefore (fs : List Fragment) : Text → Text → Bool
  | [], _ => true
  | name, [] => Search.startsBy sameLetter name (Fragment.rowText fs)
  | a :: name, c :: t => sameLetter a c && startsBefore fs name t

/-- The position, counted from `i`, at which a name starts in a text that the fragments continue. -/
def findBefore? (fs : List Fragment) (name : Text) (i : Nat) : Text → Option Nat
  | [] => none
  | c :: cs => if startsBefore fs name (c :: cs) then some i else findBefore? fs name (i + 1) cs

/-- The position, counted from `i`, at which a name starts in source text of a row. -/
def findInRow? (name : Text) (i : Nat) : List Fragment → Option Nat
  | [] => if name.isEmpty then some i else none
  | ⟨.literal, t⟩ :: fs => findInRow? name (i + t.length) fs
  | ⟨.source, t⟩ :: fs =>
    match findBefore? fs name i t with
    | some k => some k
    | none => findInRow? name (i + t.length) fs

/-- The first position at or after `start` where a name starts in source text. -/
def findName? (d : Document) (name : Text) (start : Nat) : Option Nat :=
  if name.isEmpty && d.text.length < start then none
  else findInRow? name start (Fragment.dropRow start d.fragments)

/-- A search that goes on in later fragments reads their text. -/
theorem startsBefore_eq (fs : List Fragment) (name t : Text) :
    startsBefore fs name t = Search.startsBy sameLetter name (t ++ Fragment.rowText fs) := by
  induction name generalizing t with
  | nil => simp [startsBefore, Search.startsBy]
  | cons a name ih =>
    cases t with
    | nil => simp [startsBefore]
    | cons c t => simp [startsBefore, Search.startsBy, ih]

/-- Cells begin with a name if their characters do. -/
theorem startsBy_cells (name : Text) (cs : List Cell) :
    Search.startsBy (fun a c => sameLetter a c.1) name cs =
      Search.startsBy sameLetter name (cs.map Prod.fst) := by
  induction name generalizing cs with
  | nil => simp [Search.startsBy]
  | cons a name ih =>
    cases cs with
    | nil => simp [Search.startsBy]
    | cons c cs => simp [Search.startsBy, ih]

/-- At a source character a name stands where the text of the row begins with it. -/
theorem nameAtStart_source (fs : List Fragment) (name : Text) (c : Char) (t : Text) :
    nameAtStart name (Fragment.cells ⟨.source, c :: t⟩ ++ Fragment.rowCells fs) =
      startsBefore fs name (c :: t) := by
  rw [nameAtStart, startsBy_cells, startsBefore_eq, List.map_append, Fragment.map_fst_rowCells]
  simp [Fragment.cells, startsInSource, Function.comp_def]

/-- No name starts in a literal fragment. -/
theorem firstFrom_literal (fs : List Fragment) (name : Text) (i : Nat) (t : Text) :
    Search.firstFrom (nameAtStart name) i (Fragment.cells ⟨.literal, t⟩ ++ Fragment.rowCells fs) =
      Search.firstFrom (nameAtStart name) (i + t.length) (Fragment.rowCells fs) := by
  induction t generalizing i with
  | nil => rfl
  | cons c t ih =>
    have hno : nameAtStart name ((c, Origin.literal) ::
        (Fragment.cells ⟨.literal, t⟩ ++ Fragment.rowCells fs)) = false := by
      simp [nameAtStart, startsInSource]
    have hlen : i + 1 + t.length = i + (c :: t).length := by simp only [List.length_cons]; omega
    rw [← hlen, ← ih]
    simp only [Fragment.cells, List.map_cons, List.cons_append, Search.firstFrom] at hno ⊢
    simp [hno]

/-- In a source fragment a name is looked for at each position, and then in the fragments
behind. -/
theorem firstFrom_source (fs : List Fragment) (name : Text) (i : Nat) (t : Text) :
    Search.firstFrom (nameAtStart name) i (Fragment.cells ⟨.source, t⟩ ++ Fragment.rowCells fs) =
      match findBefore? fs name i t with
      | some k => some k
      | none => Search.firstFrom (nameAtStart name) (i + t.length) (Fragment.rowCells fs) := by
  induction t generalizing i with
  | nil => rfl
  | cons c t ih =>
    have hlen : i + 1 + t.length = i + (c :: t).length := by simp only [List.length_cons]; omega
    have hstart := nameAtStart_source fs name c t
    rw [← hlen, findBefore?, ← hstart]
    have hcells : Fragment.cells ⟨.source, c :: t⟩ =
        (c, .source) :: Fragment.cells ⟨.source, t⟩ := rfl
    rw [hcells, List.cons_append, Search.firstFrom]
    split
    · rfl
    · exact ih (i + 1)

/-- The search along fragments is the search along cells. -/
theorem findInRow?_eq (name : Text) (i : Nat) (fs : List Fragment) :
    findInRow? name i fs = Search.firstFrom (nameAtStart name) i (Fragment.rowCells fs) := by
  induction fs generalizing i with
  | nil => cases name <;> rfl
  | cons f fs ih =>
    obtain ⟨origin, t⟩ := f
    cases origin with
    | literal => rw [findInRow?, Fragment.rowCells_cons, firstFrom_literal, ih]
    | source => rw [findInRow?, Fragment.rowCells_cons, firstFrom_source, ih]

/-- The search finds the first position of the cells where a name starts in source text. -/
theorem findName?_eq (d : Document) (name : Text) (start : Nat) :
    d.findName? name start = Search.firstAfter? (nameAtStart name) d.cells start := by
  have hrow : findInRow? name start (Fragment.dropRow start d.fragments) =
      (Search.first? (nameAtStart name) (d.cells.drop start)).map (start + ·) := by
    rw [findInRow?_eq, Fragment.rowCells_dropRow, Search.firstFrom_eq_map]
    rfl
  rw [findName?, Search.firstAfter?_eq_ite, hrow, length_cells]
  by_cases hs : start ≤ d.text.length
  · have hin : ¬ d.text.length < start := by omega
    simp [hs, hin]
  -- the start is behind the text, where only the empty name could be
  · have hout : d.text.length < start := by omega
    have hnil : d.cells.drop start = [] := List.drop_of_length_le (by rw [length_cells]; omega)
    cases name with
    | nil => simp [hs, hout]
    | cons a name =>
      rw [hnil, if_neg hs]
      simp [Search.first?, Search.firstFrom, nameAtStart, Search.startsBy]

def isLiteralAt (d : Document) (i : Nat) : Bool := !startsInSource (d.cells.drop i)

/-- The byte offset of the first name at or after a byte offset. The empty name stands at every
offset in source text, also inside a character. -/
def findNameByte? (d : Document) (name : Text) (start : Nat) : Option Nat :=
  if name.isEmpty && start ≤ Text.byteLength d.text &&
      !d.isLiteralAt (Text.positionHolding d.text start) then some start
  else (d.findName? name (Text.positionAtOrAfter d.text start)).map (Text.byteOffset d.text)

end Stencil.Document
