import Stencil.Proofs.Bounds
import Stencil.Proofs.Composition
import Stencil.Proofs.Unescape
/-!
# What is rendered

The final document of an evaluation is composed of source characters and of results, and so is each
of its fragments (`Fragment.exists_parts`). A literal fragment whose results are whole is read as
what was returned, one result behind the other, and whatever follows it is read by itself: the code
of a `#` that was returned ends with the result. A source fragment is read by itself unless a code
runs over its end (`Fragment.unescape_rowText`).
-/

namespace Stencil

/-- What was returned for an item, nothing for a source character. -/
def Item.result : Item → Text
  | written _ _ => []
  | returned _ r _ => r

namespace Fragment

variable {f : Fragment} {fs : List Fragment} {items part : List Item} {parts : List (List Item)}

/-- The cells of the fragment are those of the items. -/
def MadeOf (f : Fragment) (items : List Item) : Prop := f.cells = (Item.rows items).map Prod.fst

/-- What a fragment shows that is made of items: source text is read, and results are shown as they
were returned. -/
def shown (f : Fragment) (items : List Item) : Text :=
  match f.origin with
  | .source => Text.unescape f.text
  | .literal => items.flatMap Item.result

/-- No code that begins in a source fragment ends in what follows the fragment. -/
def ReadApart : List Fragment → Prop
  | [] => True
  | f :: fs => (f.origin = .source → Text.runsOver f.text (rowText fs) = false) ∧ ReadApart fs

/-! ### The parts of a row -/

/-- The end of a fragment is inside of no result, for what follows has the other origin. -/
theorem not_inside_first (h : Canonical (f :: fs)) :
    ¬ Item.Inside (f.cells ++ rowCells fs) f.cells.length := by
  rintro ⟨m, a, b, hlength, ha, hb⟩
  rw [List.getElem?_append_left (by omega)] at ha
  obtain ⟨c, -, hc⟩ := List.mem_map.1 (List.mem_of_getElem? ha)
  rw [← hlength, List.getElem?_append_right le_rfl, Nat.sub_self, ← List.head?_eq_getElem?] at hb
  exact head?_rowCells_ne h _ hb (Prod.mk.inj hc).2.symm

/-- The items of a row are those of its first fragment and those of the others. -/
theorem exists_first (h : Canonical (f :: fs))
    (hrows : f.cells ++ rowCells fs = (Item.rows items).map Prod.fst) :
    ∃ first rest, items = first ++ rest ∧ f.MadeOf first ∧
      rowCells fs = (Item.rows rest).map Prod.fst := by
  have hle : f.cells.length ≤ (Item.rows items).length := by
    have hlength := congrArg List.length hrows
    rw [List.length_append, List.length_map] at hlength
    exact hlength ▸ Nat.le_add_right _ _
  obtain ⟨first, rest, rfl, hlength⟩ :=
    Item.exists_append hle (hrows ▸ not_inside_first h)
  rw [Item.rows_append, List.map_append] at hrows
  obtain ⟨hfirst, hrest⟩ := List.append_inj hrows (by rw [List.length_map, hlength])
  exact ⟨first, rest, rfl, hfirst, hrest⟩

/-- The items of a row are those of its fragments, in order. -/
theorem exists_parts (h : Canonical fs) (hrows : rowCells fs = (Item.rows items).map Prod.fst) :
    ∃ parts, List.Forall₂ MadeOf fs parts ∧ parts.flatten.Sublist items := by
  induction fs generalizing items with
  | nil => exact ⟨[], .nil, List.nil_sublist _⟩
  | cons f fs ih =>
    obtain ⟨first, rest, rfl, hfirst, hrest⟩ := exists_first h hrows
    obtain ⟨parts, hparts, hsublist⟩ := ih h.2.2 hrest
    exact ⟨first :: parts, .cons hfirst hparts, (List.Sublist.refl first).append hsublist⟩

/-! ### Reading a row -/

/-- A literal fragment holds the results that it is made of, escaped. -/
theorem text_eq_escape (h : f.MadeOf part) (horigin : f.origin = .literal)
    (hwhole : ∀ item ∈ part, item.Whole) : f.text = Text.escape (part.flatMap Item.result) := by
  have hitem : ∀ item ∈ part, item.row.map (·.1.1) = Text.escape item.result := by
    intro item hmem
    cases item with
    | written x c =>
      -- a source character is not literal
      have hcell : ((c, .source) : Cell) ∈ f.cells := by
        rw [h]
        exact List.mem_map.2 ⟨((c, .source), some x),
          List.mem_flatMap.2 ⟨_, hmem, List.mem_singleton.2 rfl⟩, rfl⟩
      obtain ⟨_, -, heq⟩ := List.mem_map.1 hcell
      rw [horigin] at heq
      cases heq
    | returned x r gone =>
      obtain rfl : gone = 0 := hwhole _ hmem
      rw [Item.row, List.map_map]
      exact List.map_id _
  have htext : f.text = f.cells.map Prod.fst := by
    rw [cells, List.map_map]
    exact (List.map_id _).symm
  rw [htext, h, List.map_map, Item.rows, List.map_flatMap, Text.escape, List.flatMap_assoc]
  exact List.flatMap_congr hitem

/-- A row is read fragment by fragment. -/
theorem unescape_rowText (h : List.Forall₂ MadeOf fs parts)
    (hwhole : ∀ item ∈ parts.flatten, item.Whole) (hapart : ReadApart fs) :
    Text.unescape (rowText fs) = (List.zipWith shown fs parts).flatten := by
  induction h with
  | nil => rfl
  | @cons f part fs parts hmade _ ih =>
    have hrest := ih (fun item hitem => hwhole item (List.mem_append_right _ hitem)) hapart.2
    rw [rowText_cons, List.zipWith_cons_cons, List.flatten_cons, ← hrest, shown]
    cases horigin : f.origin with
    | source => exact Text.unescape_append_of_runsOver (hapart.1 horigin)
    | literal =>
      rw [text_eq_escape hmade horigin fun item hitem =>
        hwhole item (List.mem_append_left _ hitem)]
      exact Text.unescape_escape_append _ _

end Fragment

namespace Evaluator

variable {ev : Evaluator} {source : Text} {state : ExecutionState}

/-- Each fragment of the final document is made of source characters and of results of calls that
have returned, in the order in which they were written, and every result is whole if none continues
a name or a keyword. Where all results are whole and no code runs over the end of a source fragment,
the text of the evaluation is what the fragments show: source text that was read, and results as
they were returned. -/
theorem returned_texts_are_rendered {e : Evaluation}
    (h : (ev.evaluate source state).result = .ok e) :
    ∃ d s parts,
      ev.resolve (ev.limits.depth + 1) (.source source) (.start state) = (.ok d, s) ∧
      e.text = d.rendered ∧
      List.Forall₂ Fragment.MadeOf d.fragments parts ∧
      ev.Arranged source state (ev.Harmless s) parts.flatten ∧
      ((∀ item ∈ parts.flatten, item.Whole) → Fragment.ReadApart d.fragments →
        e.text = Text.trim (List.zipWith Fragment.shown d.fragments parts).flatten) := by
  obtain ⟨d, s, hout, rfl, -⟩ := evaluate_result_eq_ok h
  obtain ⟨p, hreached, hdepth, -, rfl, rfl⟩ := exists_settled (ev.listed_enter _ _ _ _) hout
  obtain ⟨items, hcomposed⟩ := Reached.exists_composed hreached hdepth
  obtain ⟨parts, hparts, hsublist⟩ :=
    Fragment.exists_parts p.document.canonical hcomposed.cells_eq
  refine ⟨p.document, p.session, parts, ?_, rfl, hparts,
    hcomposed.arranged.remain (.of_sublist hsublist), fun hwhole hapart => ?_⟩
  · rw [← hout]
    exact resolveAt_eq_outcome 0 _ _ _
  · exact congrArg Text.trim (Fragment.unescape_rowText hparts hwhole hapart)

/-- The evaluator with a function `$g` that gives this text. -/
def giving (result : Text) : Evaluator := withFunctions [.constant ['g'] result]

/-- In `#$g[]LEFT#` the result `#` is rendered as it is. It stands between two parts of the source
that it could have continued to a code. -/
theorem returned_hash_is_rendered : ∃ e parts,
    ((giving ['#']).evaluate "#$g[]LEFT#".toList .initial).result = .ok e ∧
    List.Forall₂ Fragment.MadeOf [⟨.source, ['#']⟩, ⟨.literal, Text.escape ['#']⟩,
      ⟨.source, "LEFT#".toList⟩] parts ∧
    e.text = Text.trim (List.zipWith Fragment.shown [⟨.source, ['#']⟩,
      ⟨.literal, Text.escape ['#']⟩, ⟨.source, "LEFT#".toList⟩] parts).flatten := by
  have hsuccess : ((giving ['#']).evaluate "#$g[]LEFT#".toList .initial).result = .ok _ := rfl
  obtain ⟨d, s, parts, hresolve, -, hparts, harranged, hrendered⟩ :=
    returned_texts_are_rendered hsuccess
  have hfinal : ∃ d₀ s₀, (giving ['#']).resolve ((giving ['#']).limits.depth + 1)
      (.source "#$g[]LEFT#".toList) (.start .initial) = (.ok d₀, s₀) ∧
      d₀.fragments = [⟨.source, ['#']⟩, ⟨.literal, Text.escape ['#']⟩,
        ⟨.source, "LEFT#".toList⟩] ∧ s₀.results = [['#']] := ⟨_, _, rfl, rfl, rfl⟩
  obtain ⟨d₀, s₀, hfinal, hfragments, hresults⟩ := hfinal
  rw [hfinal] at hresolve
  cases hresolve
  rw [hfragments] at hparts hrendered
  have hharmless : (giving ['#']).Harmless s := by
    intro r hr
    rw [hresults] at hr
    obtain rfl := List.mem_singleton.1 hr
    decide
  refine ⟨_, parts, hsuccess, hparts, hrendered (harranged.kept hharmless) ?_⟩
  exact ⟨fun _ => by decide, (absurd · (by decide)), fun _ => by decide, trivial⟩

/-- In `#LEF$g[]` the result `T#` ends a code that the source begins, and what is left of the result
is its own code. -/
theorem code_ends_in_result :
    ((giving "T#".toList).evaluate "#LEF$g[]".toList .initial).result.map (·.text) =
      .ok "[HASH#".toList ∧
    (∃ d s, (giving "T#".toList).resolve ((giving "T#".toList).limits.depth + 1)
        (.source "#LEF$g[]".toList) (.start .initial) = (.ok d, s) ∧
      d.fragments = [⟨.source, "#LEF".toList⟩, ⟨.literal, Text.escape "T#".toList⟩] ∧
      s.results = ["T#".toList]) ∧
    Text.trim (Text.unescape "#LEF".toList ++ "T#".toList) = "#LEFT#".toList ∧
    "#LEFT#".toList ≠ "[HASH#".toList := by
  exact ⟨rfl, ⟨_, _, rfl, rfl, rfl⟩, by decide, by decide⟩

end Evaluator

end Stencil
