import Stencil.Text.Basic
/-!
# Tables

A table gives values to names. Setting a name replaces its value, erasing it takes the value away,
and neither touches another name.
-/

namespace Stencil

/-- Names and their values, no name twice. -/
structure Table (α : Type) where
  rows : List (Text × α)
  distinct : (rows.map Prod.fst).Nodup

namespace Table

variable {α : Type}

def empty : Table α := ⟨[], List.nodup_nil⟩

def get? (t : Table α) (name : Text) : Option α := t.rows.lookup name

/-- The rows of names other than the given one. -/
def others (t : Table α) (name : Text) : List (Text × α) := t.rows.filter (·.1 != name)

theorem nodup_others (t : Table α) (name : Text) : ((t.others name).map Prod.fst).Nodup :=
  t.distinct.sublist (List.filter_sublist.map _)

theorem nodup_cons_others (t : Table α) (name : Text) (value : α) :
    (((name, value) :: t.others name).map Prod.fst).Nodup := by
  refine List.nodup_cons.2 ⟨?_, t.nodup_others name⟩
  intro hmem
  obtain ⟨row, hrow, hname⟩ := List.mem_map.1 hmem
  -- a row that is kept has another name
  have hne := (List.mem_filter.1 hrow).2
  simp [hname] at hne

def erase (t : Table α) (name : Text) : Table α := ⟨t.others name, t.nodup_others name⟩

def set (t : Table α) (name : Text) (value : α) : Table α :=
  ⟨(name, value) :: t.others name, t.nodup_cons_others name value⟩

@[simp] theorem get?_empty (name : Text) : (empty : Table α).get? name = none := rfl

/-- Without the rows of a name, that name has no value and the others keep theirs. -/
theorem lookup_filter_ne (rows : List (Text × α)) (a b : Text) :
    (rows.filter (·.1 != a)).lookup b = if b = a then none else rows.lookup b := by
  induction rows with
  | nil => simp
  | cons r rows ih =>
    obtain ⟨c, v⟩ := r
    by_cases hc : c = a
    · have hdrop : ((c, v) :: rows).filter (·.1 != a) = rows.filter (·.1 != a) := by simp [hc]
      rw [hdrop, ih]
      by_cases hb : b = a
      · simp [hb]
      · have hbc : (b == c) = false := by simp [hc, hb]
        simp [hb, List.lookup_cons, hbc]
    · have hkeep : ((c, v) :: rows).filter (·.1 != a) = (c, v) :: rows.filter (·.1 != a) := by
        simp [hc]
      rw [hkeep]
      by_cases hb : b = c
      · subst hb
        simp [hc]
      · have hbc : (b == c) = false := by simp [hb]
        simp [List.lookup_cons, hbc, ih]

/-- Erasing a name leaves every other name as it was. -/
theorem get?_erase (t : Table α) (a b : Text) :
    (t.erase a).get? b = if b = a then none else t.get? b :=
  lookup_filter_ne t.rows a b

/-- Setting a name leaves every other name as it was. -/
theorem get?_set (t : Table α) (a b : Text) (v : α) :
    (t.set a v).get? b = if b = a then some v else t.get? b := by
  by_cases h : b = a
  · subst h
    simp [set, get?]
  · have hba : (b == a) = false := by simp [h]
    have hrest : (t.others a).lookup b = t.get? b := by
      rw [others, lookup_filter_ne, if_neg h, get?]
    rw [if_neg h, ← hrest]
    simp [set, get?, List.lookup_cons, hba]

end Table

end Stencil
