import Mathlib.Data.List.Forall2
import Stencil.Proofs.Run
/-!
# Places in the source

Every source character of a document of a run was written at some place of the source, and the
places of a document tell where (`Reached.tracks`). Moves only leave places out and keep the others
in order (`Move.places_sublist`), so that places increase along every document of a run
(`Reached.rising`): a place stands at one position at most, and what was written between two places
stands between their positions.
-/

namespace Stencil

/-! ### Cells and their places -/

/-- A source character was written at its place; a literal one has none. -/
def TrackedAt (source : Text) (cell : Cell) (place : Option Nat) : Prop :=
  match cell.2, place with
  | .source, some x => source[x]? = some cell.1
  | .literal, none => True
  | _, _ => False

/-- The places tell where the source characters of the cells were written. -/
def Tracks (source : Text) (cells : List Cell) (places : List (Option Nat)) : Prop :=
  List.Forall₂ (TrackedAt source) cells places

namespace Tracks

variable {source : Text} {cells new : List Cell} {places newPlaces : List (Option Nat)}

/-- A part of a tracked row is tracked. -/
theorem cut (h : Tracks source cells places) (s : Span) :
    Tracks source (s.cut cells) (s.cut places) :=
  List.forall₂_take _ (List.forall₂_drop _ h)

/-- Rows are tracked one behind the other. -/
theorem append (h : Tracks source cells places) (hnew : Tracks source new newPlaces) :
    Tracks source (cells ++ new) (places ++ newPlaces) :=
  List.rel_append h hnew

/-- What is put in brings its own places along. -/
theorem graft (h : Tracks source cells places) (hnew : Tracks source new newPlaces) (s : Span) :
    Tracks source (s.graft new cells) (s.graft newPlaces places) :=
  append (append (List.forall₂_take _ h) hnew) (List.forall₂_drop _ h)

/-- The parts of a body are tracked, one behind the other. -/
theorem gather (h : Tracks source cells places) (spans : List Span) :
    Tracks source (Span.gather spans cells) (Span.gather spans places) := by
  induction spans with
  | nil => exact .nil
  | cons s spans ih => exact (h.cut s).append ih

/-- The characters of a result have no place. -/
theorem literal (t : Text) :
    Tracks source (t.map (·, Origin.literal)) (List.replicate t.length none) := by
  induction t with
  | nil => exact .nil
  | cons c t ih => exact .cons trivial ih

/-- The whole source tracks itself. -/
theorem whole (source : Text) :
    Tracks source (source.map (·, Origin.source)) ((List.range source.length).map some) := by
  -- by induction on what is left of the source behind a part of it
  have htail : ∀ before rest : Text, source = before ++ rest →
      Tracks source (rest.map (·, Origin.source))
        ((List.range' before.length rest.length).map some) := by
    intro before rest
    induction rest generalizing before with
    | nil => exact fun _ => .nil
    | cons c rest ih =>
      intro hsource
      have hrest := ih (before ++ [c]) (by rw [hsource, List.append_assoc]; rfl)
      rw [List.length_append, List.length_singleton] at hrest
      have hc : source[before.length]? = some c := by
        rw [hsource, List.getElem?_append_right le_rfl, Nat.sub_self]
        rfl
      rw [List.length_cons, List.range'_succ]
      exact .cons hc hrest
  have hall := htail [] source rfl
  rwa [List.length_nil, ← List.range_eq_range'] at hall

/-- A source character was written at its place. -/
theorem exists_place (h : Tracks source cells places) {i : Nat} {c : Char}
    (hi : cells[i]? = some (c, .source)) :
    ∃ x, places[i]? = some (some x) ∧ source[x]? = some c := by
  induction h generalizing i with
  | nil => cases hi
  -- the cell is the first one, or one of the rest
  | @cons cell place cells places hcell _ ih =>
    cases i with
    | zero =>
      obtain rfl : cell = (c, .source) := by simpa using hi
      cases place with
      | none => exact hcell.elim
      | some x => exact ⟨x, rfl, hcell⟩
    | succ i => exact ih hi

/-- A place belongs to a source character, the one that is written there. -/
theorem exists_cell (h : Tracks source cells places) {i x : Nat}
    (hi : places[i]? = some (some x)) :
    ∃ c, cells[i]? = some (c, .source) ∧ source[x]? = some c := by
  induction h generalizing i with
  | nil => cases hi
  | @cons cell place cells places hcell _ ih =>
    cases i with
    | zero =>
      obtain rfl : place = some x := by simpa using hi
      obtain ⟨c, origin⟩ := cell
      cases origin with
      | literal => exact hcell.elim
      | source => exact ⟨c, rfl, hcell⟩
    | succ i => exact ih hi

end Tracks

/-! ### Rising places -/

/-- The places of a document increase. -/
def Rising (places : List (Option Nat)) : Prop :=
  places.Pairwise fun a b => ∀ x ∈ a, ∀ y ∈ b, x < y

namespace Rising

variable {places : List (Option Nat)} {i j x y : Nat}

/-- Of two places the earlier one belongs to the earlier character. -/
theorem lt (h : Rising places) (hi : places[i]? = some (some x)) (hj : places[j]? = some (some y))
    (hij : i < j) : x < y := by
  obtain ⟨hilt, hi⟩ := List.getElem?_eq_some_iff.1 hi
  obtain ⟨hjlt, hj⟩ := List.getElem?_eq_some_iff.1 hj
  exact List.pairwise_iff_getElem.1 h i j hilt hjlt hij x (by rw [hi]; rfl) y (by rw [hj]; rfl)

/-- What is written earlier stands earlier. -/
theorem lt_of_lt (h : Rising places) (hi : places[i]? = some (some x))
    (hj : places[j]? = some (some y)) (hxy : x < y) : i < j := by
  rcases Nat.lt_trichotomy i j with hlt | rfl | hgt
  · exact hlt
  · rw [hi] at hj
    cases hj
    omega
  · have := h.lt hj hi hgt
    omega

/-- A place occurs once. -/
theorem eq_of_eq (h : Rising places) (hi : places[i]? = some (some x))
    (hj : places[j]? = some (some x)) : i = j := by
  rcases Nat.lt_trichotomy i j with hlt | rfl | hgt
  · have := h.lt hi hj hlt
    omega
  · rfl
  · have := h.lt hj hi hgt
    omega

/-- A place stands on one side of a position at most. -/
theorem not_mem_drop (h : Rising places) {n : Nat} (hx : some x ∈ places.take n) :
    some x ∉ places.drop n := by
  intro hx'
  rw [Rising, ← List.take_append_drop n places] at h
  exact Nat.lt_irrefl x ((List.pairwise_append.1 h).2.2 _ hx _ hx' x rfl x rfl)

/-- A place stands at one position at most. -/
theorem countP_le_one (h : Rising places) (x : Nat) : places.countP (· == some x) ≤ 1 := by
  induction places with
  | nil => exact Nat.zero_le _
  | cons a rest ih =>
    obtain ⟨hfirst, hrest⟩ := List.pairwise_cons.1 h
    rw [List.countP_cons]
    split
    -- the first place is less than all behind it, so it does not occur again
    · next ha =>
      have hnone : rest.countP (· == some x) = 0 := by
        refine List.countP_eq_zero.2 fun b hb hbx => ?_
        have hlt := hfirst b hb x (beq_iff_eq.1 ha) x (beq_iff_eq.1 hbx)
        omega
      omega
    · exact ih hrest

end Rising

/-- The places that a list of places tells. -/
def told (places : List (Option Nat)) : List Nat := places.filterMap id

/-- The places that are told are those of the row. -/
theorem mem_told {places : List (Option Nat)} {x : Nat} : x ∈ told places ↔ some x ∈ places := by
  rw [told, List.mem_filterMap]
  constructor
  · rintro ⟨a, ha, rfl⟩
    exact ha
  · exact fun h => ⟨some x, h, rfl⟩

/-- Characters of results tell no place. -/
theorem told_replicate_none (n : Nat) : told (List.replicate n none) = [] := by
  induction n with
  | zero => rfl
  | succ n ih => exact ih

/-- Places rise where the ones that are told do. -/
theorem rising_iff {places : List (Option Nat)} : Rising places ↔ (told places).Pairwise (· < ·) := by
  rw [told, List.pairwise_filterMap]
  rfl

namespace Evaluator

variable {ev : Evaluator} {p q : Point} {source : Text} {state : ExecutionState}

/-- Moves leave places out and keep the others in order. -/
theorem Move.places_sublist (hp : ev.Listed p) (move : ev.Move p q) :
    (told q.places).Sublist (told p.places) := by
  cases move with
  | leave => exact .refl _
  | @call f span slots result s calls returns =>
    obtain ⟨name, -, -, hcovers⟩ := calls.covers hp
    -- the characters of the result have no place, so the call leaves a gap
    have hgap : (span.graft [] p.places).Sublist p.places :=
      Span.graft_sublist (by have := hcovers.name_le; omega) (List.nil_sublist _)
    have htold := hgap.filterMap id
    simp only [afterCall, told, Span.graft, List.filterMap_append, List.append_nil] at htold ⊢
    have hnone := told_replicate_none (Text.escape result).length
    rw [told] at hnone
    rwa [hnone, List.append_nil]
  | @argument f span slot slots done more args s calls within slots_eq earlier marked =>
    exact (slot.cut_isInfix p.places).sublist.filterMap id
  | @block b chosen s resolves chooses =>
    -- what is chosen takes the place of the block it lies in
    have hspan := resolves.laid.choice_inOrder (mem_choices_of_chosenBody chooses)
    have hgraft := Span.graft_sublist (s := b.span) hspan.le (hspan.gather_sublist p.places)
    exact hgraft.filterMap id
  | @condition b c asked later s resolves within conditions_eq earlier =>
    exact (c.cut_isInfix p.places).sublist.filterMap id

/-- Along a run places are left out, and the others keep their order. -/
theorem Leads.places_sublist (h : ev.Leads p q) (hp : ev.Listed p) :
    (told q.places).Sublist (told p.places) := by
  induction h with
  | refl => exact .refl _
  | tail hleads move ih => exact (move.places_sublist (Leads.listed hleads hp)).trans ih

/-- Every place of a later point is one of an earlier point. -/
theorem Leads.mem_places (h : ev.Leads p q) (hp : ev.Listed p) {x : Nat} (hx : some x ∈ q.places) :
    some x ∈ p.places :=
  mem_told.1 ((h.places_sublist hp).subset (mem_told.2 hx))

/-- The places of a document rise, since those of the source do. -/
theorem Reached.rising (h : ev.Reached source state p) : Rising p.places := by
  have hsublist := Leads.places_sublist h (ev.listed_enter _ _ _ _)
  have hstart : told (ev.start source state).places = List.range source.length := by
    simp [start, enter, told, List.filterMap_map]
  rw [hstart] at hsublist
  exact rising_iff.2 (List.pairwise_lt_range.sublist hsublist)

/-- A move keeps every character at its place. -/
theorem Move.tracks (h : Tracks source p.document.cells p.places) (move : ev.Move p q) :
    Tracks source q.document.cells q.places := by
  cases move with
  | leave => exact h
  -- the result stands where the call was, and it has no places
  | @call f span slots result s calls returns =>
    have hliteral : Tracks source ((Text.escape result).map (·, Origin.literal))
        (List.replicate (Text.escape result).length none) := Tracks.literal _
    rw [afterCall, cells_replaced]
    exact h.graft hliteral span
  | @argument f span slot slots done more args s calls within slots_eq earlier marked =>
    rw [enterPart, enter, Document.cells_slice_eq_cut]
    exact h.cut slot
  -- the body stands where the block was, with the places that it had
  | @block b chosen s resolves chooses =>
    rw [afterBlock, enter, cells_restarted]
    exact h.graft (h.gather chosen) b.span
  | @condition b c asked later s resolves within conditions_eq earlier =>
    rw [enterPart, enter, Document.cells_slice_eq_cut]
    exact h.cut c

/-- The places of every document of a run tell where its source characters were written. -/
theorem Reached.tracks (h : ev.Reached source state p) :
    Tracks source p.document.cells p.places := by
  refine h.invariant (fun p => Tracks source p.document.cells p.places) ?_
    fun p q _ hp move => move.tracks hp
  rw [start, enter, Document.cells_source]
  exact .whole source

end Evaluator

end Stencil
