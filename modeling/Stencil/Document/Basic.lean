import Stencil.Document.Fragment
/-!
# Documents

A document is a canonical row of fragments. It is read through two views: `text`, all its
characters, and `cells`, its characters with their origins. What builds documents is, on the cells,
a list operation:

* `cells_push` — appending documents appends their cells;
* `cells_slice` — a slice has the cells of its span;
* `cells_gather` — gathering spans concatenates their slices;
* `cells_splice` — splicing exchanges the cells of a span.

Two documents are equal exactly when their cells are (`ext_cells`).
-/

namespace Stencil

/-- Text of two origins: source text, and literal text that a function returned. -/
structure Document where
  fragments : List Fragment
  canonical : Fragment.Canonical fragments

namespace Document

/-- The document with the cells of a row of fragments. -/
def ofFragments (fs : List Fragment) : Document :=
  ⟨Fragment.normal fs, Fragment.canonical_normal fs⟩

def empty : Document := ⟨[], trivial⟩

def source (t : Text) : Document := ofFragments [⟨.source, t⟩]

def literal (t : Text) : Document := ofFragments [⟨.literal, t⟩]

/-- All characters of a document. -/
def text (d : Document) : Text := Fragment.rowText d.fragments

/-- The characters of a document with their origins. -/
def cells (d : Document) : List Cell := Fragment.rowCells d.fragments

def push (d e : Document) : Document := ofFragments (d.fragments ++ e.fragments)

def slice (d : Document) (s : Span) : Document :=
  ofFragments (Fragment.takeRow (s.stop - s.start) (Fragment.dropRow s.start d.fragments))

/-- The parts of a document in several spans, one after the other. -/
def gather (d : Document) (spans : List Span) : Document :=
  ofFragments (spans.flatMap fun s => (d.slice s).fragments)

/-- The document with the cells of a span replaced by another document. -/
def splice (d : Document) (s : Span) (e : Document) : Document :=
  ofFragments
    (Fragment.takeRow s.start d.fragments ++ (e.fragments ++ Fragment.dropRow s.stop d.fragments))

/-- Whether some source character is a marker. -/
def hasMarker (d : Document) : Bool :=
  d.fragments.any fun f => f.origin == .source && Text.hasMarker f.text

/-! ### The views -/

/-- A document is determined by its cells. -/
theorem ext_cells {d e : Document} (h : d.cells = e.cells) : d = e := by
  obtain ⟨fs, hf⟩ := d
  obtain ⟨gs, hg⟩ := e
  have hrow : fs = gs := Fragment.eq_of_rowCells hf hg h
  subst hrow
  rfl

theorem cells_eq_iff {d e : Document} : d.cells = e.cells ↔ d = e :=
  ⟨ext_cells, fun h => h ▸ rfl⟩

/-- The text is what the cells say without the origins. -/
theorem map_fst_cells (d : Document) : d.cells.map Prod.fst = d.text :=
  Fragment.map_fst_rowCells d.fragments

theorem length_cells (d : Document) : d.cells.length = d.text.length := by
  rw [← map_fst_cells, List.length_map]

@[simp] theorem cells_ofFragments (fs : List Fragment) :
    (ofFragments fs).cells = Fragment.rowCells fs :=
  Fragment.rowCells_normal fs

@[simp] theorem cells_empty : empty.cells = [] := rfl

@[simp] theorem cells_source (t : Text) : (source t).cells = t.map (·, Origin.source) := by
  simp [source, Fragment.cells]

@[simp] theorem cells_literal (t : Text) : (literal t).cells = t.map (·, Origin.literal) := by
  simp [literal, Fragment.cells]

@[simp] theorem cells_push (d e : Document) : (d.push e).cells = d.cells ++ e.cells := by
  rw [push, cells_ofFragments, Fragment.rowCells_append]
  rfl

@[simp] theorem cells_slice (d : Document) (s : Span) :
    (d.slice s).cells = (d.cells.drop s.start).take (s.stop - s.start) := by
  rw [slice, cells_ofFragments, Fragment.rowCells_takeRow, Fragment.rowCells_dropRow]
  rfl

/-- The cells of a gathered document are those of its slices. -/
theorem cells_gather (d : Document) (spans : List Span) :
    (d.gather spans).cells = spans.flatMap fun s => (d.slice s).cells := by
  rw [gather, cells_ofFragments]
  exact List.flatMap_assoc

/-- The cells of a splice are those around the span with the new ones in between. -/
theorem cells_splice (d : Document) (s : Span) (e : Document) :
    (d.splice s e).cells = d.cells.take s.start ++ e.cells ++ d.cells.drop s.stop := by
  rw [splice, cells_ofFragments, Fragment.rowCells_append, Fragment.rowCells_append,
    Fragment.rowCells_takeRow, Fragment.rowCells_dropRow, List.append_assoc]
  rfl

@[simp] theorem text_source (t : Text) : (source t).text = t := by
  rw [← map_fst_cells, cells_source, List.map_map]
  simp [Function.comp_def]

@[simp] theorem text_literal (t : Text) : (literal t).text = t := by
  rw [← map_fst_cells, cells_literal, List.map_map]
  simp [Function.comp_def]

@[simp] theorem text_slice (d : Document) (s : Span) : (d.slice s).text = d.text.slice s := by
  rw [← map_fst_cells, cells_slice, List.map_take, List.map_drop, map_fst_cells, Text.slice]

theorem text_splice (d : Document) (s : Span) (e : Document) :
    (d.splice s e).text = d.text.take s.start ++ e.text ++ d.text.drop s.stop := by
  simp only [← map_fst_cells, cells_splice, List.map_append, List.map_take, List.map_drop]

end Document

end Stencil
