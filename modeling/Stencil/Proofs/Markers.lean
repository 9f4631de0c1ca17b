import Stencil.Proofs.Inert
import Stencil.Proofs.Outcome
import Stencil.Proofs.Tagged
/-!
# Markers come from the source

Structure is read off the markers of a text alone: where names begin, where lists are cut, where
blocks are. None of it looks at the origins of the characters. It need not, because every marker of
every document that comes up in an evaluation (`Evaluator.Arises`) was written in the source. A
document holds no markers in its literal text, and the markers of its text are some of those of the
source, in their order (`Document.MarkedBy`).

That is kept by whatever makes one document of another: a slice and a choice of a block hold some
of the markers, and an escaped result brings none.
-/

namespace Stencil

/-- The markers of a text, in order. -/
def Text.markerText (t : Text) : Text := t.filter isMarker

/-- No marker is left in an escaped text. -/
theorem Text.markerText_escape (t : Text) : markerText (escape t) = [] :=
  List.filter_eq_nil_iff.2 fun _ hc => Bool.eq_false_iff.1 (isMarker_of_mem_escape hc)

namespace Document

/-- The markers of a document are source text, and some of the markers of a source. -/
structure MarkedBy (source : Text) (d : Document) : Prop where
  marked : Marked d.cells
  sublist : (Text.markerText d.text).Sublist (Text.markerText source)

variable {source : Text} {d : Document} {r s : Span}

/-- What the ranges of a document hold is the text of its literal fragments. -/
theorem exists_fragment_of_mem_literals (h : r ∈ d.literals) :
    ∃ f ∈ d.fragments, f.origin = .literal ∧ d.ranged.between r.start r.stop = f.text := by
  -- by induction on the ranges that are left when the pieces are read
  have hpieces : ∀ (rs : List Span) (b : Nat), r ∈ rs →
      ⟨.literal, d.ranged.between r.start r.stop⟩ ∈ d.ranged.piecesFrom b rs := by
    intro rs
    induction rs with
    | nil => exact nofun
    | cons first rs ih =>
      intro b hr
      rw [Ranged.piecesFrom]
      apply List.mem_append_right
      rcases List.mem_cons.1 hr with rfl | hr
      · exact List.mem_cons_self
      · exact List.mem_cons_of_mem _ (ih first.stop hr)
  have hmem := hpieces d.literals 0 h
  have hfragments : d.ranged.piecesFrom 0 d.literals = d.fragments := d.ranged_fragments
  rw [hfragments] at hmem
  exact ⟨_, hmem, rfl, rfl⟩

namespace MarkedBy

/-- No range of literal text holds a marker. -/
theorem isMarker_of_mem_literals (h : MarkedBy source d) (hr : r ∈ d.literals) {c : Char}
    (hc : c ∈ d.ranged.between r.start r.stop) : isMarker c = false := by
  obtain ⟨f, hf, horigin, htext⟩ := exists_fragment_of_mem_literals hr
  rw [htext] at hc
  have hcell : (c, f.origin) ∈ d.cells := by
    apply List.mem_flatMap.2
    exact ⟨f, hf, List.mem_map.2 ⟨c, hc, rfl⟩⟩
  rw [horigin] at hcell
  rw [Bool.eq_false_iff]
  intro hmark
  cases h.marked _ hcell hmark

/-- The source is marked by itself. -/
theorem whole (source : Text) : MarkedBy source (.source source) where
  marked := by
    intro cell hcell _
    rw [cells_source] at hcell
    obtain ⟨c, -, rfl⟩ := List.mem_map.1 hcell
    rfl
  sublist := by
    rw [text_source]

/-- An escaped text brings no markers. -/
theorem literal (source t : Text) : MarkedBy source (.literal (Text.escape t)) where
  marked := by
    rw [cells_literal]
    exact marked_literal t
  sublist := by
    rw [text_literal, Text.markerText_escape]
    exact List.nil_sublist _

theorem slice (h : MarkedBy source d) (s : Span) : MarkedBy source (d.slice s) where
  marked := by
    rw [cells_slice_eq_cut]
    exact h.marked.subset fun _ => Span.mem_of_mem_cut
  sublist := by
    rw [text_slice_eq_cut]
    exact ((s.cut_isInfix d.text).sublist.filter _).trans h.sublist

/-- Spans in order hold some of the markers. -/
theorem gather (h : MarkedBy source d) {lo hi : Nat} {spans : List Span}
    (hspans : Span.InOrder lo hi spans) : MarkedBy source (d.gather spans) where
  marked := by
    rw [cells_gather_eq]
    exact h.marked.gather
  sublist := by
    rw [text_gather_eq]
    have hcut := (hspans.gather_sublist d.text).trans (Span.cut_isInfix _ _).sublist
    exact (hcut.filter _).trans h.sublist

/-- A result brings no markers. -/
theorem replaced (h : MarkedBy source d) (hs : s.start ≤ s.stop) (result : Text) :
    MarkedBy source (Evaluator.replaced d s result) where
  marked := by
    rw [Evaluator.cells_replaced]
    exact h.marked.graft (marked_literal result)
  sublist := by
    rw [Evaluator.replaced, text_splice_eq_graft, text_literal]
    refine (Span.filter_graft_sublist hs ?_).trans h.sublist
    have hnone : (Text.escape result).filter isMarker = [] := Text.markerText_escape result
    rw [hnone]
    exact List.nil_sublist _

/-- What is chosen of a block stands in it, in order. -/
theorem restarted (h : MarkedBy source d) {b : Block} (hlaid : b.Laid d.text) {chosen : List Span}
    (hchosen : chosen ∈ b.choices) : MarkedBy source (Evaluator.restarted d b chosen) where
  marked := by
    rw [Evaluator.cells_restarted]
    exact h.marked.graft h.marked.gather
  sublist := by
    have horder := hlaid.choice_inOrder hchosen
    rw [Evaluator.restarted, text_splice_eq_graft, text_gather_eq]
    refine (Span.filter_graft_sublist horder.le ?_).trans h.sublist
    exact (horder.gather_sublist d.text).filter _

end MarkedBy

end Document

namespace Evaluator

variable {ev : Evaluator} {p q : Point} {source : Text} {state : ExecutionState} {d : Document}

/-! ### Runs -/

/-- Moves bring no markers. -/
theorem Move.markedBy (hp : ev.Listed p) (h : p.document.MarkedBy source) (move : ev.Move p q) :
    q.document.MarkedBy source := by
  cases move with
  | leave => exact h
  | call calls returns =>
    obtain ⟨name, -, -, hcovers⟩ := calls.covers hp
    apply h.replaced
    have := hcovers.name_le
    omega
  | argument => exact h.slice _
  | block resolves chooses =>
    apply h.restarted resolves.laid
    exact mem_choices_of_chosenBody chooses
  | condition => exact h.slice _

/-- So it is at every point of a run. -/
theorem Reached.markedBy (h : ev.Reached source state p) : p.document.MarkedBy source :=
  h.invariant (fun p => p.document.MarkedBy source) (.whole source) fun _ _ hp hinv move =>
    move.markedBy hp hinv

/-- A document that comes up in an evaluation. -/
inductive Arises (ev : Evaluator) (source : Text) (state : ExecutionState) : Document → Prop
  /-- The document of a point: the source, what it became by the steps so far, and every argument
  and condition that was entered. -/
  | point {p : Point} (reached : ev.Reached source state p) : Arises ev source state p.document
  /-- A slot of a call, whether there is something to resolve in it or not. -/
  | slot {p : Point} {f : Function} {span slot : Span} {slots : List (Option Span)}
      (reached : ev.Reached source state p) (calls : ev.Calls p f span slots)
      (mem : some slot ∈ slots) : Arises ev source state (p.document.slice slot)
  /-- A condition of a block, whether it is asked or not. -/
  | condition {p : Point} {b : Block} {c : Span} (reached : ev.Reached source state p)
      (resolves : ev.Resolves p b) (mem : c ∈ b.conditions) :
      Arises ev source state (p.document.slice c)
  /-- What can be chosen of a block. -/
  | choice {p : Point} {b : Block} {chosen : List Span} (reached : ev.Reached source state p)
      (resolves : ev.Resolves p b) (mem : chosen ∈ b.choices) :
      Arises ev source state (p.document.gather chosen)
  /-- What a call is replaced by. -/
  | result {p : Point} {f : Function} {span : Span} {slots : List (Option Span)} {result : Text}
      {s : Session} (reached : ev.Reached source state p) (calls : ev.Calls p f span slots)
      (returns : ev.callResult (ev.resolveAt (p.depth + 1)) p.document f slots p.session =
        (.ok result, s)) :
      Arises ev source state (.literal (Text.escape result))
  /-- What a document that was entered is resolved to. -/
  | resolution {depth : Nat} {d resolved : Document} {places : List (Option Nat)} {s s' : Session}
      (reached : ev.Reached source state (ev.enter depth d places s))
      (resolves : ev.resolveAt depth d s = (.ok resolved, s')) : Arises ev source state resolved

/-- And with every document that arises. -/
theorem Arises.markedBy (h : ev.Arises source state d) : d.MarkedBy source := by
  cases h with
  | point reached => exact reached.markedBy
  | slot reached => exact reached.markedBy.slice _
  | condition reached => exact reached.markedBy.slice _
  | choice reached resolves mem => exact reached.markedBy.gather (resolves.laid.choice_inOrder mem)
  | result => exact .literal source _
  | resolution reached resolves =>
    -- what a document is resolved to is the document of the point at which nothing is left to do
    rw [resolveAt_eq_outcome] at resolves
    obtain ⟨q, hleads, -, -, rfl, -⟩ := exists_settled reached.listed resolves
    exact Reached.markedBy (Relation.ReflTransGen.trans reached hleads)

/-- The markers of every document that comes up in an evaluation come from the source: the literal
ranges of the document hold none, the ranges and the fragments are in canonical form, and the
markers of its text are some of those of the source, in their order. The document that an evaluation
renders is one of these documents. -/
theorem markers_come_from_source (ev : Evaluator) (source : Text) (state : ExecutionState) :
    (∀ d, ev.Arises source state d →
      (∀ r ∈ d.literals, ∀ c ∈ d.ranged.between r.start r.stop, isMarker c = false) ∧
      (Span.Gapped d.literals ∧ (∀ r ∈ d.literals, r.stop ≤ Text.byteLength d.text) ∧
        d.fragments.IsChain (·.origin ≠ ·.origin) ∧ ∀ f ∈ d.fragments, f.text ≠ []) ∧
      (Text.markerText d.text).Sublist (Text.markerText source)) ∧
    ∀ d s, ev.resolve (ev.limits.depth + 1) (.source source) (.start state) = (.ok d, s) →
      ev.Arises source state d := by
  constructor
  · intro d h
    have hmarked := h.markedBy
    have hcanonical := Document.isChain_of_canonical d.canonical
    exact ⟨fun r hr c hc => hmarked.isMarker_of_mem_literals hr hc,
      ⟨d.gapped_literals, fun r hr => Document.stop_le_of_mem_literals hr, hcanonical⟩,
      hmarked.sublist⟩
  · intro d s h
    have hstart : ev.Reached source state (ev.start source state) := .refl
    exact .resolution hstart h

/-- In `$x[;]]` the function returns `$[`, which stands in the document as two codes. Only the last
bracket of the source is left as a marker. -/
theorem returned_markers_are_codes : ∃ p,
    (withFunctions [.constant ['x'] ['$', '[']]).Reached "$x[;]]".toList .initial p ∧
    p.document.text = "#CHAR##LEFT#]".toList ∧ p.document.literals = [⟨0, 12⟩] ∧
    (∀ c ∈ p.document.ranged.between 0 12, isMarker c = false) ∧
    (Text.markerText p.document.text).Sublist (Text.markerText "$x[;]]".toList) := by
  have hreached :
      (withFunctions [.constant ['x'] ['$', '[']]).Reached "$x[;]]".toList .initial _ :=
    .single (.call ⟨['$', 'x'], ⟨by decide, rfl⟩, rfl, rfl⟩ rfl)
  obtain ⟨hliterals, -, hsublist⟩ := (markers_come_from_source _ _ _).1 _ (.point hreached)
  exact ⟨_, hreached, rfl, rfl, hliterals ⟨0, 12⟩ (by decide), hsublist⟩

end Evaluator

end Stencil
