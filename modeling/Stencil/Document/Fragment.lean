import Stencil.Text.Basic
import Stencil.Text.Escape
/-!
# Fragments

A document is text of two origins: *source*, which may hold invocations, and *literal* text, which a
function returned. A fragment is a piece of one origin. A row of fragments is *canonical* when no
fragment is empty and neighbours differ in origin; `normal` brings every row into that form.

What a row means is its row of cells, characters with their origins. `normal`, `takeRow` and
`dropRow` are stated by what they do to the cells, and `eq_of_rowCells` says that canonical rows
with the same cells are the same row.
-/

namespace Stencil

inductive Origin where
  | source
  | literal
deriving DecidableEq, Repr

structure Fragment where
  origin : Origin
  text : Text
deriving DecidableEq, Repr

/-- A character and its origin. -/
abbrev Cell := Char × Origin

namespace Fragment

def cells (f : Fragment) : List Cell := f.text.map (·, f.origin)

def rowCells (fs : List Fragment) : List Cell := fs.flatMap cells

@[simp] theorem rowCells_nil : rowCells [] = [] := rfl

@[simp] theorem rowCells_cons (f : Fragment) (fs : List Fragment) :
    rowCells (f :: fs) = f.cells ++ rowCells fs := rfl

@[simp] theorem rowCells_append (fs gs : List Fragment) :
    rowCells (fs ++ gs) = rowCells fs ++ rowCells gs := by
  simp [rowCells]

/-! ### Canonical rows -/

/-- No fragment is empty, and neighbours differ in origin. -/
def Canonical : List Fragment → Prop
  | [] => True
  | f :: fs => f.text ≠ [] ∧ (∀ g ∈ fs.head?, f.origin ≠ g.origin) ∧ Canonical fs

/-- The row with one more fragment in front, joined to the first one if the origin is the same. -/
def attach (f : Fragment) : List Fragment → List Fragment
  | [] => if f.text.isEmpty then [] else [f]
  | g :: gs =>
    if f.text.isEmpty then g :: gs
    else if f.origin = g.origin then ⟨g.origin, f.text ++ g.text⟩ :: gs
    else f :: g :: gs

/-- The canonical row with the same cells. -/
def normal (fs : List Fragment) : List Fragment := fs.foldr attach []

/-- Putting a fragment in front keeps all cells. -/
theorem rowCells_attach (f : Fragment) (fs : List Fragment) :
    rowCells (attach f fs) = f.cells ++ rowCells fs := by
  cases fs with
  | nil =>
    by_cases h : f.text = []
    · simp [attach, cells, h]
    · simp [attach, h]
  | cons g gs =>
    by_cases h : f.text = []
    · simp [attach, cells, h]
    · by_cases ho : f.origin = g.origin
      · simp [attach, cells, h, ho]
      · simp [attach, h, ho]

/-- Putting a fragment in front of a canonical row makes a canonical row, since it is joined with
a neighbour of its origin. -/
theorem canonical_attach (f : Fragment) {fs : List Fragment} (h : Canonical fs) :
    Canonical (attach f fs) := by
  cases fs with
  | nil =>
    by_cases hf : f.text = []
    · simp [attach, hf, Canonical]
    · simp [attach, hf, Canonical]
  | cons g gs =>
    by_cases hf : f.text = []
    · simpa [attach, hf] using h
    · by_cases ho : f.origin = g.origin
      · simpa [attach, hf, ho, Canonical] using h.2
      · simpa [attach, hf, ho, Canonical] using h

@[simp] theorem rowCells_normal (fs : List Fragment) : rowCells (normal fs) = rowCells fs := by
  induction fs with
  | nil => rfl
  | cons f fs ih =>
    have step : normal (f :: fs) = attach f (normal fs) := rfl
    rw [step, rowCells_attach, ih, rowCells_cons]

/-- Every row has a canonical form. -/
theorem canonical_normal (fs : List Fragment) : Canonical (normal fs) := by
  induction fs with
  | nil => trivial
  | cons f fs ih => exact canonical_attach f ih

/-- A canonical row is its own normal form. -/
theorem normal_eq_self {fs : List Fragment} (h : Canonical fs) : normal fs = fs := by
  induction fs with
  | nil => rfl
  | cons f fs ih =>
    have step : normal (f :: fs) = attach f (normal fs) := rfl
    rw [step, ih h.2.2]
    cases fs with
    | nil => simp [attach, h.1]
    | cons g gs =>
      have hne : f.origin ≠ g.origin := h.2.1 g rfl
      simp [attach, h.1, hne]

/-! ### Canonical rows are told apart by their cells

The first fragment of a canonical row is the longest run of cells of one origin at its start, so it
can be read off the cells. -/

/-- The cell that follows the first fragment of a canonical row has the other origin. -/
theorem head?_rowCells_ne {f : Fragment} {fs : List Fragment} (h : Canonical (f :: fs)) :
    ∀ c ∈ (rowCells fs).head?, c.2 ≠ f.origin := by
  cases fs with
  | nil => simp
  | cons g gs =>
    have hne : f.origin ≠ g.origin := h.2.1 g rfl
    obtain ⟨c, cs, hc⟩ := List.exists_cons_of_ne_nil h.2.2.1
    simp [cells, hc, Ne.symm hne]

/-- The cells of the first fragment of a canonical row are those up to the first of another
origin. -/
theorem takeWhile_rowCells {f : Fragment} {fs : List Fragment} (h : Canonical (f :: fs)) :
    (rowCells (f :: fs)).takeWhile (·.2 = f.origin) = f.cells := by
  have hall : ∀ c ∈ f.cells, (decide (c.2 = f.origin)) = true := by simp [cells]
  have hstop := head?_rowCells_ne h
  rw [rowCells_cons, List.takeWhile_append_of_pos hall]
  cases hr : rowCells fs with
  | nil => simp
  | cons c cs =>
    have hc : c.2 ≠ f.origin := hstop c (by simp [hr])
    simp [hc]

/-- A fragment that is not empty is determined by its cells. -/
theorem cells_injective {f g : Fragment} (hf : f.text ≠ []) (h : f.cells = g.cells) : f = g := by
  obtain ⟨o, t⟩ := f
  obtain ⟨o', t'⟩ := g
  have ht : t = t' := by
    simpa [cells, List.map_map, Function.comp_def] using congrArg (List.map Prod.fst) h
  subst ht
  obtain ⟨c, cs, rfl⟩ := List.exists_cons_of_ne_nil hf
  have ho : o = o' := by
    have hhead := congrArg List.head? h
    simpa [cells] using hhead
  rw [ho]

/-- Canonical rows with the same cells are the same row. -/
theorem eq_of_rowCells {fs gs : List Fragment} (hf : Canonical fs) (hg : Canonical gs)
    (h : rowCells fs = rowCells gs) : fs = gs := by
  induction fs generalizing gs with
  | nil =>
    cases gs with
    | nil => rfl
    | cons g gs => simp [cells, hg.1] at h
  | cons f fs ih =>
    cases gs with
    | nil => simp [cells, hf.1] at h
    | cons g gs =>
      -- the first fragments begin with the same cell, so they have one origin
      have ho : f.origin = g.origin := by
        obtain ⟨a, as, ha⟩ := List.exists_cons_of_ne_nil hf.1
        obtain ⟨b, bs, hb⟩ := List.exists_cons_of_ne_nil hg.1
        have h0 := congrArg List.head? h
        simp only [rowCells_cons, cells, ha, hb, List.map_cons, List.cons_append, List.head?_cons,
          Option.some.injEq, Prod.mk.injEq] at h0
        exact h0.2
      -- and so the first fragments end at the same cell
      have hfirst : f.cells = g.cells := by
        rw [← takeWhile_rowCells hf, ← takeWhile_rowCells hg, h, ho]
      obtain rfl := cells_injective hf.1 hfirst
      have hrest : rowCells fs = rowCells gs := List.append_cancel_left h
      rw [ih hf.2.2 hg.2.2 hrest]

/-! ### Reading and cutting rows

`rowText`, `takeRow` and `dropRow` are the text of a row, its first cells and the others. They leave
every fragment that they do not cut as it is, so that a cut in a long row is cheap. -/

/-- All characters of a row. -/
def rowText : List Fragment → Text
  | [] => []
  | [f] => f.text
  | f :: fs => f.text ++ rowText fs

/-- The row of the first `n` cells. -/
def takeRow : Nat → List Fragment → List Fragment
  | _, [] => []
  | n, f :: fs =>
    if (f.text.drop n).isEmpty then f :: takeRow (n - f.text.length) fs
    else [⟨f.origin, f.text.take n⟩]

/-- The row without the first `n` cells. -/
def dropRow : Nat → List Fragment → List Fragment
  | _, [] => []
  | n, f :: fs =>
    if (f.text.drop n).isEmpty then dropRow (n - f.text.length) fs
    else ⟨f.origin, f.text.drop n⟩ :: fs

theorem rowText_cons (f : Fragment) (fs : List Fragment) :
    rowText (f :: fs) = f.text ++ rowText fs := by
  cases fs with
  | nil => simp [rowText]
  | cons g gs => rfl

theorem length_cells (f : Fragment) : f.cells.length = f.text.length := by simp [cells]

/-- The text is what the cells say without the origins. -/
theorem map_fst_rowCells (fs : List Fragment) : (rowCells fs).map Prod.fst = rowText fs := by
  induction fs with
  | nil => rfl
  | cons f fs ih => simp [rowText_cons, ih, cells, Function.comp_def]

/-- Taking fragments takes cells. -/
theorem rowCells_takeRow (n : Nat) (fs : List Fragment) :
    rowCells (takeRow n fs) = (rowCells fs).take n := by
  induction fs generalizing n with
  | nil => simp [takeRow]
  | cons f fs ih =>
    rw [takeRow, rowCells_cons, List.take_append, length_cells]
    simp only [List.isEmpty_iff, List.drop_eq_nil_iff]
    split
    · next h =>
      have hwhole : f.cells.take n = f.cells :=
        List.take_of_length_le (by rw [length_cells]; exact h)
      rw [rowCells_cons, ih, hwhole]
    · next h =>
      have hrest : n - f.text.length = 0 := by omega
      simp [hrest, cells, List.map_take]

/-- Dropping fragments drops cells. -/
theorem rowCells_dropRow (n : Nat) (fs : List Fragment) :
    rowCells (dropRow n fs) = (rowCells fs).drop n := by
  induction fs generalizing n with
  | nil => simp [dropRow]
  | cons f fs ih =>
    rw [dropRow, rowCells_cons, List.drop_append, length_cells]
    simp only [List.isEmpty_iff, List.drop_eq_nil_iff]
    split
    · next h =>
      have hnone : f.cells.drop n = [] := List.drop_of_length_le (by rw [length_cells]; exact h)
      rw [ih, hnone, List.nil_append]
    · next h =>
      have hrest : n - f.text.length = 0 := by omega
      simp [hrest, cells, List.map_drop]

end Fragment

end Stencil
