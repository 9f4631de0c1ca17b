import Stencil.Proofs.Bounds
import Stencil.Proofs.ExchangedBlock
import Stencil.Proofs.ExchangedNames
import Stencil.Proofs.Outcome
import Stencil.Proofs.Place
/-!
# Runs on two texts that differ in a plain part

Two points are `Twins` if they are alike but for what is exchanged. While that stays `Undisturbed`,
the steps that are next at twins are of one kind: the same name is left, refused or called, and the
same block is resolved, or both are malformed. A call or a block takes twins to twins, or it takes
what is exchanged along and leaves two points that are the same. So the two runs come to the same but
for that (`outcomes_of_twins`, by induction along the moves).
-/

namespace Stencil

open Block

namespace Exchange

variable {x : Exchange} {ev : Evaluator} {nested : Evaluator.Nested} {d d' : Document} {name : Text}
  {b : Block} {s s' : Session}

/-! ### What is next -/

/-- The cells of both documents stand along the two rows. -/
theorem Holds.along (h : x.Holds d d') : x.Along (x.old.map (·, Origin.source))
    (x.new.map (·, Origin.source)) d.cells d'.cells := by
  obtain ⟨front, back, hfront, -, hcells, hcells'⟩ := h
  exact ⟨front, back, by rw [← hfront, List.length_map], List.length_map _, List.length_map _,
    hcells, hcells'⟩

/-- A part of the document that lies beside what is exchanged is the same in the other one. -/
theorem Holds.slice_moveSpan (h : x.Holds d d') {s : Span} (hs : x.Beside s)
    (hle : s.start ≤ s.stop) : d'.slice (x.moveSpan s) = d.slice s := by
  refine Document.ext_cells ?_
  rw [Document.cells_slice_eq_cut, Document.cells_slice_eq_cut, h.along.cut_of_beside hs hle]

/-- Whether a name waits for a branch does not depend on what is exchanged. -/
theorem Holds.isPending_changed (h : x.Holds d d') (hx : x.Steady ev.names)
    (hname : name ∈ ev.names) : Evaluator.isPending d' name = Evaluator.isPending d name := by
  have hhead := Evaluator.head?_of_mem_names hname
  unfold Evaluator.isPending
  rw [h.findName?_changed hx hname hhead, h.text_eq, h.text_eq_changed]
  cases hfind : d.findName? name 0 with
  | none => rfl
  | some i =>
    obtain ⟨-, -, hat, -⟩ := Document.findName?_eq_some_iff.1 hfind
    have hget : x.text[i]? = some '$' := by
      rw [← h.text_eq, ← Document.map_fst_cells, List.getElem?_map, hat.getElem?_start hhead]
      rfl
    simp only [Option.map_some, Option.any_some, hx.isInside_move (outside_of_marker hget rfl)]

/-- What is to be done for a name, where it has moved to. -/
inductive MovedOrder (x : Exchange) : Evaluator.Order → Evaluator.Order → Prop
  | leave : MovedOrder x .leave .leave
  | refuse (f : Function) : MovedOrder x (.refuse f) (.refuse f)
  | call {f : Function} {span : Span} {slots slots' : List (Option Span)}
      (moved : x.Spares span → slots' = x.moveSlots slots) :
      MovedOrder x (.call f span slots) (.call f (x.moveSpan span) slots')

/-- What is ordered for a name is the same, with its span and slots where they have moved to. -/
theorem Holds.movedOrder_orderFor (h : x.Holds d d') (hx : x.Steady ev.names)
    (hname : name ∈ ev.names) : x.MovedOrder (ev.orderFor d name) (ev.orderFor d' name) := by
  have hsite := h.movedSite_find hx hname (Evaluator.head?_of_mem_names hname)
  unfold Evaluator.orderFor
  generalize CallSite.find d name = site at hsite ⊢
  generalize CallSite.find d' name = site' at hsite ⊢
  cases hsite with
  | absent | escaped | unterminated => exact .leave
  | bare span =>
    cases ev.registry.get? name with
    | none => exact .leave
    | some f =>
      simp only
      split
      · exact .refuse f
      · exact .call fun _ => rfl
  | call moved =>
    cases ev.registry.get? name with
    | none => exact .leave
    | some f => exact .call moved

/-! ### Calls -/

/-- Slots that have moved hold the same arguments. -/
theorem arguments_moveSlots {slots : List (Option Span)}
    (h : ∀ s, some s ∈ slots → d'.slice (x.moveSpan s) = d.slice s) :
    Evaluator.arguments nested d' (x.moveSlots slots) = Evaluator.arguments nested d slots := by
  induction slots with
  | nil => rfl
  | cons slot slots ih =>
    -- a slot with a span holds the text of the span, which is the same in both
    have hslot : Evaluator.argument nested d' (slot.map x.moveSpan) =
        Evaluator.argument nested d slot := by
      cases slot with
      | none => rfl
      | some s =>
        simp only [Option.map_some, Evaluator.argument, h s List.mem_cons_self]
    have hmore := ih fun s hs => h s (List.mem_cons_of_mem slot hs)
    rw [Evaluator.arguments, Evaluator.arguments] at hmore ⊢
    rw [moveSlots, List.map_cons, List.mapM_cons, List.mapM_cons, hslot]
    rw [moveSlots] at hmore
    rw [hmore]

/-- The slots of a call that spares what is exchanged lie in front of it or behind it. -/
theorem Holds.slots_beside (h : x.Holds d d') {span slot : Span} {slots : List (Option Span)}
    (hcovers : CallSite.Covers d name span slots) (hspares : x.Spares span)
    (hslot : some slot ∈ slots) : x.Beside slot ∧ slot.start ≤ slot.stop := by
  obtain ⟨inner, hinner, horder, hopens⟩ := hcovers.slots_inOrder
  obtain ⟨hstart, hle, hstop⟩ := horder.bounds (List.mem_filterMap.2 ⟨some slot, hslot, rfl⟩)
  obtain ⟨hlt, hopen⟩ := hopens (List.ne_nil_of_mem hslot)
  rw [h.text_eq] at hopen
  refine ⟨?_, hle⟩
  rcases outside_of_marker hopen rfl with hbefore | hbehind
  · have hout : span.stop ≤ x.before.length := Nat.le_of_not_lt fun hover =>
      hspares hover (inner - 1) (by omega) hbefore hopen
    exact .inl (hstop.trans hout)
  · exact .inr (by omega)

/-- So a call gives the same result. -/
theorem callResult_moveSlots (f : Function) {slots : List (Option Span)}
    (h : ∀ s, some s ∈ slots → d'.slice (x.moveSpan s) = d.slice s) :
    ev.callResult nested d' f (x.moveSlots slots) = ev.callResult nested d f slots := by
  rw [Evaluator.callResult, Evaluator.callResult, arguments_moveSlots h]

/-! ### Choices -/

/-- The same error, or choices of the same parts. -/
inductive MovedChoice (x : Exchange) : Except EvalError (List Span) × Session →
    Except EvalError (List Span) × Session → Prop
  | error (e : EvalError) (s : Session) : MovedChoice x (.error e, s) (.error e, s)
  | ok {chosen chosen' : List Span} (s : Session)
      (moved : chosen'.flatMap part = x.moveParts chosen) :
      MovedChoice x (.ok chosen, s) (.ok chosen', s)

/-- Choices that depend on the same step are moved when each of them is. -/
theorem MovedChoice.bind {α : Type} {y : Eval α} {f g : α → Eval (List Span)}
    (h : ∀ a s, MovedChoice x (f a s) (g a s)) (s : Session) :
    MovedChoice x ((y >>= f) s) ((y >>= g) s) := by
  rw [Eval.bind_apply, Eval.bind_apply]
  rcases y s with ⟨e | a, s'⟩
  · exact .error e s'
  · exact h a s'

/-- A part of a part is that part. -/
theorem flatMap_part_part (s : Span) : (part s).flatMap part = part s := by
  by_cases hs : s.isEmpty = true
  · rw [part, if_pos hs]
    rfl
  · have hpart : part s = [s] := if_neg hs
    rw [hpart, List.flatMap_singleton, hpart]

/-- Moved parts have no empty ones. -/
theorem flatMap_part_moveParts (spans : List Span) :
    (x.moveParts spans).flatMap part = x.moveParts spans := by
  rw [moveParts, List.flatMap_assoc]
  exact List.flatMap_congr fun s _ => flatMap_part_part s

/-- Where the conditions have the same text the same alternative is chosen. -/
theorem movedChoice_chooseAlternative (otherwise : List Span) {alternatives : List Alternative}
    (h : ∀ a ∈ alternatives, d'.slice (x.moveSpan a.condition) = d.slice a.condition) (s : Session) :
    MovedChoice x (Evaluator.chooseAlternative nested d otherwise alternatives s)
      (Evaluator.chooseAlternative nested d' (x.moveParts otherwise)
        (alternatives.map x.moveAlternative) s) := by
  induction alternatives generalizing s with
  | nil => exact .ok s (flatMap_part_moveParts otherwise)
  | cons a later ih =>
    have hholds : Evaluator.conditionHolds nested d' (x.moveSpan a.condition) =
        Evaluator.conditionHolds nested d a.condition := by
      rw [Evaluator.conditionHolds, Evaluator.conditionHolds, h a List.mem_cons_self]
    rw [List.map_cons, Evaluator.chooseAlternative, Evaluator.chooseAlternative]
    simp only [moveAlternative, hholds]
    refine .bind (fun holds s => ?_) s
    cases holds with
    | true => exact .ok s rfl
    | false => exact ih (fun a' ha' => h a' (List.mem_cons_of_mem a ha')) s

/-- Where the conditions have the same text the same is chosen. -/
theorem movedChoice_chosenBody (ev : Evaluator) (nested : Evaluator.Nested)
    (h : ∀ c ∈ b.conditions, d'.slice (x.moveSpan c) = d.slice c)
    (s : Session) :
    MovedChoice x (ev.chosenBody nested d b s) (ev.chosenBody nested d' (x.moveBlock b) s) := by
  -- the first condition has the same text, so it is decided alike
  have hholds : Evaluator.conditionHolds nested d' (x.moveSpan b.condition) =
      Evaluator.conditionHolds nested d b.condition := by
    rw [Evaluator.conditionHolds, Evaluator.conditionHolds, h b.condition List.mem_cons_self]
  refine .bind (fun _ s => ?_) s
  rw [Evaluator.chooseBody, Evaluator.chooseBody]
  simp only [moveBlock, hholds]
  refine .bind (fun holds s => ?_) s
  cases holds with
  | true => exact .ok s (flatMap_part_moveParts b.body)
  | false =>
    exact movedChoice_chooseAlternative b.otherwise (fun a ha =>
      h a.condition (List.mem_cons_of_mem _ (List.mem_map_of_mem ha))) s

/-! ### Points -/

/-- The same exchange with other text around it. -/
def around (x : Exchange) (before behind : Text) : Exchange :=
  { x with before := before, behind := behind }

/-- What is exchanged still stands in the document of a point, between these texts. -/
structure Stands (x : Exchange) (p : Point) (before behind : Text) : Prop where
  text : p.document.text = before ++ (x.old ++ behind)
  place : p.places[before.length]? = some (some x.before.length)

/-- A character with its origin and its place. -/
abbrev Row := List (Cell × Option Nat)

/-- Source text that was written from a place on. -/
def writtenRow (place : Nat) (t : Text) : Row :=
  (t.zipIdx place).map fun c => ((c.1, .source), some c.2)

/-- What is exchanged, as it was written. -/
def oldRow (x : Exchange) : Row := writtenRow x.before.length x.old

/-- What takes its place. -/
def newRow (x : Exchange) : Row := x.new.map fun c => ((c, .source), none)

/-- The characters of a point. -/
structure HasRow (p : Point) (r : Row) : Prop where
  cells : p.document.cells = r.map Prod.fst
  places : p.places = r.map Prod.snd

/-- Two points that are alike but for what is exchanged. -/
structure Twins (x : Exchange) (p p' : Point) : Prop where
  rows : ∃ r r', Swapped x.oldRow x.newRow r r' ∧ HasRow p r ∧ HasRow p' r'
  depth : p'.depth = p.depth
  worklist : p'.worklist = p.worklist
  session : p'.session = p.session

variable {p p' : Point} {r r' : Row} {before behind : Text}

/-- A written row is a text of the source. -/
theorem map_fst_writtenRow (n : Nat) (t : Text) :
    (writtenRow n t).map Prod.fst = t.map (·, Origin.source) := by
  conv_rhs => rw [← List.zipIdx_map_fst n t]
  rw [writtenRow, List.map_map, List.map_map]
  rfl

/-- So is the row of the old text. -/
theorem map_fst_oldRow (x : Exchange) : x.oldRow.map Prod.fst = x.old.map (·, Origin.source) :=
  map_fst_writtenRow _ _

/-- Texts in a row are written with places counted on. -/
theorem writtenRow_append (n : Nat) (t rest : Text) :
    writtenRow n (t ++ rest) = writtenRow n t ++ writtenRow (n + t.length) rest := by
  rw [writtenRow, List.zipIdx_append, List.map_append]
  rfl

/-- A run begins with the row of its source. -/
theorem hasRow_start (source : Text) (state : ExecutionState) :
    HasRow (ev.start source state) (writtenRow 0 source) := by
  constructor
  · rw [map_fst_writtenRow]
    exact Document.cells_source source
  · have hplaces : (writtenRow 0 source).map Prod.snd = (source.zipIdx.map Prod.snd).map some := by
      rw [writtenRow, List.map_map, List.map_map]
      rfl
    rw [hplaces, List.zipIdx_map_snd, ← List.range_eq_range']
    rfl

/-- The new text stands in a row as source text. -/
theorem map_fst_newRow (x : Exchange) : x.newRow.map Prod.fst = x.new.map (·, Origin.source) := by
  rw [newRow, List.map_map]
  rfl

/-- What is exchanged stands in both documents, between the same texts. -/
theorem exists_stands (h : Swapped x.oldRow x.newRow r r') (hp : HasRow p r) (hp' : HasRow p' r') :
    ∃ before behind, x.Stands p before behind ∧
      (x.around before behind).Holds p.document p'.document ∧
      (x.around before behind).Along x.oldRow x.newRow r r' := by
  obtain ⟨front, back, rfl, rfl⟩ := h
  obtain ⟨c, cs, hold⟩ := List.exists_cons_of_ne_nil x.old_ne
  have hcells := hp.cells
  have hcells' := hp'.cells
  rw [List.map_append, List.map_append, map_fst_oldRow] at hcells
  rw [List.map_append, List.map_append, map_fst_newRow] at hcells'
  have hholds : (x.around ((front.map Prod.fst).map Prod.fst)
      ((back.map Prod.fst).map Prod.fst)).Holds p.document p'.document := ⟨front.map Prod.fst, back.map Prod.fst, rfl, rfl, hcells, hcells'⟩
  have hlen : ((front.map Prod.fst).map Prod.fst).length = front.length := by
    rw [List.length_map, List.length_map]
  -- the places of the old text are those where it was written
  refine ⟨(front.map Prod.fst).map Prod.fst, (back.map Prod.fst).map Prod.fst,
    ⟨hholds.text_eq, ?_⟩, hholds, front, back, hlen.symm, ?_, ?_, rfl, rfl⟩
  · rw [hp.places, hlen, List.getElem?_map, List.getElem?_append_right le_rfl, Nat.sub_self, oldRow,
      hold]
    rfl
  · rw [oldRow, writtenRow, List.length_map, List.length_zipIdx]
    rfl
  · rw [newRow, List.length_map]
    rfl

/-- A call puts the literal result into the row. -/
theorem hasRow_afterCall (h : HasRow p r) (span : Span) (result : Text) (s : Session) :
    HasRow (Evaluator.afterCall p span result s)
      (span.graft ((Text.escape result).map fun c => ((c, .literal), none)) r) := by
  constructor
  · rw [Span.map_graft, List.map_map, ← h.cells]
    exact Evaluator.cells_replaced p.document span result
  · rw [Span.map_graft, List.map_map, ← h.places]
    exact congrArg (span.graft · p.places) List.map_const'.symm

/-- A block puts what is chosen into the row. -/
theorem hasRow_afterBlock (ev : Evaluator) (h : HasRow p r) (b : Block) (chosen : List Span)
    (s : Session) : HasRow (ev.afterBlock p b chosen s) (b.span.graft (Span.gather chosen r) r) := by
  constructor
  · rw [Span.map_graft, Span.map_gather, ← h.cells]
    exact Evaluator.cells_restarted p.document b chosen
  · rw [Span.map_graft, Span.map_gather, ← h.places]
    rfl

/-- Points of the same row have the same document. -/
theorem document_eq_of_row (h : HasRow p r) (h' : HasRow p' r) : p'.document = p.document :=
  Document.ext_cells (h'.cells.trans h.cells.symm)

/-- What becomes of a document does not depend on the places. -/
theorem outcome_congr (hdepth : p'.depth = p.depth) (hworklist : p'.worklist = p.worklist)
    (hdocument : p'.document = p.document) (hsession : p'.session = p.session) :
    ev.outcome p' = ev.outcome p := by
  rw [Evaluator.outcome, Evaluator.outcome, hdepth, hworklist, hdocument, hsession]

end Exchange

namespace Evaluator

/-- With the step that is next goes what stands at a position: it is in a block and in nothing that
is chosen of the block, or it is in a call. -/
inductive Drops (ev : Evaluator) (p : Point) (i : Nat) : Prop
  | block {b : Block} {chosen : List Span} {s : Session} (resolves : ev.Resolves p b)
      (chooses : ev.chosenBody (ev.resolveAt (p.depth + 1)) p.document b p.session = (.ok chosen, s))
      (within : b.span.Has i) (left : ∀ c ∈ chosen, ¬ c.Has i) : Drops ev p i
  | call {f : Function} {span : Span} {slots : List (Option Span)} (calls : ev.Calls p f span slots)
      (within : span.Has i) : Drops ev p i

/-- Where the argument list of a function is missing the run fails. -/
theorem outcome_refuse {ev : Evaluator} {p : Point} {name : Text} {f : Function}
    (hnext : ev.Next p name) (hfree : isPending p.document name = false)
    (horder : ev.orderFor p.document name = .refuse f) :
    ev.outcome p = (.error (.usage f.name.text f.params), p.session) := by
  rw [outcome_of_le hnext.1, worklist_of_next hnext, afterPass_cons, hfree, invoke_eq, horder]
  rfl

end Evaluator

namespace Exchange

variable {x : Exchange} {ev : Evaluator} {state : ExecutionState} {p p' : Point} {r r' : Row}
  {before behind : Text} {s s' : Session}

/-- Wherever what is exchanged still stands in a run, no word in front of it reaches over its end, it
is in no argument list of a call and in no condition of a block. -/
structure Undisturbed (x : Exchange) (ev : Evaluator) (state : ExecutionState) : Prop where
  steady : ∀ p before behind, ev.Reached x.text state p → x.Stands p before behind →
    (x.around before behind).Steady ev.names
  spared : ∀ p before behind f span slots, ev.Reached x.text state p → x.Stands p before behind →
    ev.Calls p f span slots → (x.around before behind).Spares span
  unasked : ∀ p before behind b, ev.Reached x.text state p → x.Stands p before behind →
    ev.Resolves p b → ∀ c ∈ b.conditions, ¬ c.Has before.length

/-- What comes of a run and of the same run with the other text. -/
inductive Outcomes (x : Exchange) (ev : Evaluator) (state : ExecutionState) :
    Except EvalError Document × Session → Except EvalError Document × Session → Prop
  | failed (e : EvalError) (s : Session) : Outcomes x ev state (.error e, s) (.error e, s)
  /-- What is exchanged stands in the document to the end. -/
  | kept {p : Point} {before behind : Text} {d' : Document} {s : Session}
      (reached : ev.Reached x.text state p) (stands : x.Stands p before behind)
      (text : d'.text = before ++ (x.new ++ behind)) :
      Outcomes x ev state (.ok p.document, s) (.ok d', s)
  /-- It goes with a step. -/
  | dropped {p : Point} {before behind : Text} (reached : ev.Reached x.text state p)
      (stands : x.Stands p before behind) (drops : ev.Drops p before.length)
      (outcome : Except EvalError Document × Session) : Outcomes x ev state outcome outcome

/-- What is exchanged has a position of its own, so a span around it holds that. -/
theorem Around.has {s : Span} (h : x.Around s) : s.Has x.before.length := by
  have hpos := x.length_old_pos
  exact ⟨h.1, by have := h.2; omega⟩

/-- A span beside the exchange does not have its place. -/
theorem Beside.not_has {s : Span} (h : x.Beside s) : ¬ s.Has x.before.length := by
  have hpos := x.length_old_pos
  rintro ⟨hstart, hstop⟩
  rcases h with h | h <;> omega

/-- Two points at which a pass begins are twins if they are alike but for what is exchanged. -/
theorem Undisturbed.twins (h : x.Undisturbed ev state) (hlines : '\n' ∈ x.old ↔ '\n' ∈ x.new)
    (hp : ev.Reached x.text state p) (hrows : Swapped x.oldRow x.newRow r r') (hrow : HasRow p r)
    (hrow' : HasRow p' r') (hworklist : p.worklist = Worklist.ofText ev.names p.document.text)
    (hworklist' : p'.worklist = Worklist.ofText ev.names p'.document.text)
    (hdepth : p'.depth = p.depth) (hsession : p'.session = p.session) : x.Twins p p' := by
  obtain ⟨before, behind, hstands, hholds, -⟩ := exists_stands hrows hrow hrow'
  have hne : ∀ name ∈ ev.names, name ≠ [] := by
    rintro name hname rfl
    cases Evaluator.head?_of_mem_names hname
  have hsame := (h.steady p before behind hp hstands).ofText_changed hne hlines
  refine ⟨⟨r, r', hrows, hrow, hrow'⟩, hdepth, ?_, hsession⟩
  rw [hworklist, hworklist', hholds.text_eq, hholds.text_eq_changed, hsame]

/-- A gathering leaves out empty parts. -/
theorem gather_flatMap_part {α : Type} (spans : List Span) (l : List α) :
    Span.gather (spans.flatMap part) l = Span.gather spans l := by
  rw [Span.gather, Span.gather, List.flatMap_assoc]
  refine List.flatMap_congr fun s _ => ?_
  by_cases hs : s.isEmpty = true
  · have hcut : s.cut l = [] := by
      rw [Span.cut, Nat.sub_eq_zero_of_le (of_decide_eq_true hs), List.take_zero]
    rw [part, if_pos hs, hcut]
    rfl
  · rw [part, if_neg hs, List.flatMap_singleton]

variable {b : Block} {f : Function} {span : Span} {slots : List (Option Span)} {d d' : Document}
  {name : Text}

/-- What a call covers is not cut by the exchange. -/
theorem Holds.clearSpan_of_covers (h : x.Holds d d') (hx : x.Steady ev.names)
    (hname : name ∈ ev.names) (hcovers : CallSite.Covers d name span slots) : x.ClearSpan span := by
  have hhead := Evaluator.head?_of_mem_names hname
  have hstart : x.Outside span.start := by
    refine outside_of_marker (c := '$') ?_ rfl
    rw [← h.text_eq, ← Document.map_fst_cells, List.getElem?_map, hcovers.head hhead]
    rfl
  refine ⟨hstart.clear, ?_⟩
  rcases hcovers.stop_eq_or with hstop | ⟨hlt, hclose⟩
  -- a name that ended in the exchanged text would reach over its border
  · have hstands := hcovers.name_at.startsBy
    rw [h.text_eq] at hstands
    rw [hstop]
    exact hstart.clear_add fun hlt => Nat.le_of_not_lt fun hover =>
      hx.old ⟨span.start, _, hlt, hover, .name hname hstands⟩
  · rw [h.text_eq] at hclose
    have hlast := (outside_of_marker hclose rfl).clear_succ
    rwa [Nat.sub_add_cancel (by omega)] at hlast

/-- At twins the same name is next. -/
theorem Twins.next (h : x.Twins p p') (hnext : ev.Next p name) : ev.Next p' name :=
  ⟨h.depth ▸ hnext.1, h.worklist ▸ hnext.2⟩

/-- A call comes to the same with the other text. -/
theorem outcomes_call (h : x.Undisturbed ev state) (hp : ev.Reached x.text state p)
    (htwins : x.Twins p p') (hnext : ev.Next p name)
    (hfree : Evaluator.isPending p.document name = false)
    (horder : ev.orderFor p.document name = .call f span slots)
    (ih : ∀ q q', ev.Move p q → ev.Reached x.text state q → x.Twins q q' →
      x.Outcomes ev state (ev.outcome q) (ev.outcome q')) :
    x.Outcomes ev state (ev.outcome p) (ev.outcome p') := by
  have hnext' := htwins.next hnext
  have hcalls : ev.Calls p f span slots := ⟨name, hnext, hfree, horder⟩
  obtain ⟨⟨r, r', hrows, hrow, hrow'⟩, hdepth, hworklist, hsession⟩ := htwins
  obtain ⟨before, behind, hstands, hholds, halong⟩ := exists_stands hrows hrow hrow'
  have hsteady := h.steady p before behind hp hstands
  have hspares := h.spared p before behind f span slots hp hstands hcalls
  have hname := hnext.mem_names hp.listed
  have hcovers := (Evaluator.orderFor_eq_call (Evaluator.head?_of_mem_names hname) horder).1
  have hcalls' : ev.Calls p' f ((x.around before behind).moveSpan span)
      ((x.around before behind).moveSlots slots) := by
    refine ⟨name, hnext', by rw [hholds.isPending_changed hsteady hname, hfree], ?_⟩
    have hmoved := hholds.movedOrder_orderFor hsteady hname
    rw [horder] at hmoved
    generalize ev.orderFor p'.document name = order at hmoved
    cases hmoved with
    | call moved => rw [moved hspares]
  -- the slots are beside the exchange, so the arguments are the same
  have hsame : ∀ nested, ev.callResult nested p'.document f
      ((x.around before behind).moveSlots slots) = ev.callResult nested p.document f slots :=
    fun nested => callResult_moveSlots f fun s hs =>
      let hbeside := hholds.slots_beside hcovers hspares hs
      hholds.slice_moveSpan hbeside.1 hbeside.2
  rcases hresult : ev.callResult (ev.resolveAt (p.depth + 1)) p.document f slots p.session with
    ⟨e | result, s⟩
  -- an error of the call is the error of both runs
  · rw [Evaluator.outcome_call hcalls, Evaluator.outcome_call hcalls', hsame, hdepth, hsession,
      Eval.bind_of_error hresult, Eval.bind_of_error hresult]
    exact .failed e s
  · have hresult' : ev.callResult (ev.resolveAt (p'.depth + 1)) p'.document f
        ((x.around before behind).moveSlots slots) p'.session = (.ok result, s) := by
      rw [hsame, hdepth, hsession, hresult]
    have hrowAfter := hasRow_afterCall hrow span result s
    have hrowAfter' := hasRow_afterCall hrow' ((x.around before behind).moveSpan span) result s
    have htail : p'.worklist.tail = p.worklist.tail := congrArg List.tail hworklist
    rw [Evaluator.outcome_afterCall hcalls hresult, Evaluator.outcome_afterCall hcalls' hresult']
    -- the call stands beside what is exchanged, or around it, which is then gone
    rcases (hholds.clearSpan_of_covers hsteady hname hcovers).beside_or_around with hbeside | haround
    · have hle := (Nat.le_add_right _ _).trans hcovers.name_le
      exact ih _ _ (.call hcalls hresult) (hp.tail (.call hcalls hresult))
        ⟨⟨_, _, halong.graft_of_beside hbeside hle _, hrowAfter, hrowAfter'⟩, hdepth, htail, rfl⟩
    · rw [halong.graft_of_around haround] at hrowAfter'
      have hgone : ev.outcome
          (Evaluator.afterCall p' ((x.around before behind).moveSpan span) result s) =
            ev.outcome (Evaluator.afterCall p span result s) :=
        outcome_congr hdepth htail (document_eq_of_row hrowAfter hrowAfter') rfl
      rw [hgone]
      exact .dropped hp hstands (.call hcalls haround.has) _

/-- What a block is replaced with comes to the same with the other text. -/
theorem outcomes_afterBlock (h : x.Undisturbed ev state) (hlines : '\n' ∈ x.old ↔ '\n' ∈ x.new)
    (hp : ev.Reached x.text state p) (hstands : x.Stands p before behind) (hrow : HasRow p r)
    (hrow' : HasRow p' r') (halong : (x.around before behind).Along x.oldRow x.newRow r r')
    (hdepth : p'.depth = p.depth) (hresolves : ev.Resolves p b) {chosen chosen' : List Span}
    (hchosen : ev.chosenBody (ev.resolveAt (p.depth + 1)) p.document b p.session = (.ok chosen, s))
    (moved : chosen'.flatMap part = (x.around before behind).moveParts chosen)
    (ih : ∀ q q', ev.Move p q → ev.Reached x.text state q → x.Twins q q' →
      x.Outcomes ev state (ev.outcome q) (ev.outcome q')) :
    x.Outcomes ev state (ev.outcome (ev.afterBlock p b chosen s))
      (ev.outcome (ev.afterBlock p' ((x.around before behind).moveBlock b) chosen' s)) := by
  have hsteady := h.steady p before behind hp hstands
  have hlaid : Laid (x.around before behind).text b := by
    have := hresolves.laid
    rwa [hstands.text] at this
  have hle : b.span.start ≤ b.span.stop := by
    have := hlaid.start_le_stop
    omega
  have hmem := Evaluator.mem_choices_of_chosenBody hchosen
  have hmove : ev.Move p (ev.afterBlock p b chosen s) := .block hresolves hchosen
  have hafter := hp.tail hmove
  have hrowAfter := hasRow_afterBlock ev hrow b chosen s
  have hrowAfter' := hasRow_afterBlock ev hrow' ((x.around before behind).moveBlock b) chosen' s
  -- the parts that are chosen are the same, whether empty ones are listed or not
  have hgather : Span.gather chosen' r' =
      Span.gather (chosen.map (x.around before behind).moveSpan) r' := by
    rw [← gather_flatMap_part chosen', moved, moveParts, gather_flatMap_part]
  rw [hgather] at hrowAfter'
  -- the exchange is in what is chosen, or it went away with the block
  rcases halong.graft_gather (hsteady.clearSpan_span hlaid) hle (hlaid.choice_inOrder hmem)
    (fun c hc => hsteady.clearSpan_of_mem_choices hlaid hmem hc) with
    hswap | ⟨haround, hbeside, heq⟩
  · exact ih _ _ hmove hafter
      (h.twins hlines hafter hswap hrowAfter hrowAfter' rfl rfl hdepth rfl)
  · have hdocument := document_eq_of_row hrowAfter (heq ▸ hrowAfter')
    have hworklist := congrArg (fun d : Document => Worklist.ofText ev.names d.text) hdocument
    have hgone : ev.outcome (ev.afterBlock p' ((x.around before behind).moveBlock b) chosen' s) =
        ev.outcome (ev.afterBlock p b chosen s) := outcome_congr hdepth hworklist hdocument rfl
    rw [hgone]
    exact .dropped hp hstands
      (.block hresolves hchosen haround.has fun c hc => (hbeside c hc).not_has) _

/-- A block comes to the same with the other text. -/
theorem outcomes_block (h : x.Undisturbed ev state) (hlines : '\n' ∈ x.old ↔ '\n' ∈ x.new)
    (hp : ev.Reached x.text state p) (htwins : x.Twins p p') (hnext : ev.Next p name)
    (hpending : Evaluator.isPending p.document name = true)
    (ih : ∀ q q', ev.Move p q → ev.Reached x.text state q → x.Twins q q' →
      x.Outcomes ev state (ev.outcome q) (ev.outcome q')) :
    x.Outcomes ev state (ev.outcome p) (ev.outcome p') := by
  have hnext' := htwins.next hnext
  obtain ⟨⟨r, r', hrows, hrow, hrow'⟩, hdepth, -, hsession⟩ := htwins
  obtain ⟨before, behind, hstands, hholds, halong⟩ := exists_stands hrows hrow hrow'
  have hsteady := h.steady p before behind hp hstands
  have hname := hnext.mem_names hp.listed
  have hpending' : Evaluator.isPending p'.document name = true := by
    rw [hholds.isPending_changed hsteady hname, hpending]
  -- the block that is found is the same, or both are malformed
  have hfound := hsteady.findInnermost_changed ev.strict
  rw [← hholds.text_eq, ← hholds.text_eq_changed] at hfound
  cases hb : findInnermost p.document.text ev.strict with
  | error cause =>
    rw [hb] at hfound
    rw [Evaluator.outcome_malformed hnext hpending hb,
      Evaluator.outcome_malformed hnext' hpending' hfound, hsession]
    exact .failed _ _
  | ok b =>
    rw [hb] at hfound
    have hresolves : ev.Resolves p b := ⟨name, hnext, hpending, hb⟩
    have hresolves' : ev.Resolves p' ((x.around before behind).moveBlock b) :=
      ⟨name, hnext', hpending', hfound⟩
    have hlaid := hresolves.laid
    -- no condition has the exchange in it, so each is asked with the same text
    have hconditions : ∀ c ∈ b.conditions,
        p'.document.slice ((x.around before behind).moveSpan c) = p.document.slice c := by
      intro c hc
      have hclear := hsteady.clearSpan_of_mem_conditions (hholds.text_eq ▸ hb) hc
      rcases hclear.beside_or_around with hbeside | haround
      · exact hholds.slice_moveSpan hbeside (hlaid.conditions_inOrder.bounds hc).2.1
      · exact absurd haround.has (h.unasked p before behind b hp hstands hresolves c hc)
    have hchoice := movedChoice_chosenBody ev (ev.resolveAt (p.depth + 1)) hconditions p.session
    generalize hchosen : ev.chosenBody (ev.resolveAt (p.depth + 1)) p.document b p.session =
      choice at hchoice
    generalize hchosen' : ev.chosenBody (ev.resolveAt (p.depth + 1)) p'.document
      ((x.around before behind).moveBlock b) p.session = choice' at hchoice
    cases hchoice with
    | error e s =>
      rw [Evaluator.outcome_block hresolves, Evaluator.outcome_block hresolves', hdepth, hsession,
        Eval.bind_of_error hchosen, Eval.bind_of_error hchosen']
      exact .failed e s
    | ok s moved =>
      rw [← hdepth, ← hsession] at hchosen'
      rw [Evaluator.outcome_afterBlock hresolves hchosen,
        Evaluator.outcome_afterBlock hresolves' hchosen']
      exact outcomes_afterBlock h hlines hp hstands hrow hrow' halong hdepth hresolves hchosen
        moved ih

/-- A run comes to the same with the other text, but for that. -/
theorem outcomes_of_twins (h : x.Undisturbed ev state) (hlines : '\n' ∈ x.old ↔ '\n' ∈ x.new)
    (hp : ev.Reached x.text state p) (htwins : x.Twins p p') :
    x.Outcomes ev state (ev.outcome p) (ev.outcome p') := by
  induction Evaluator.acc_move hp.listed generalizing p' with
  | intro p _ ih =>
    have hlater : ∀ q q', ev.Move p q → ev.Reached x.text state q → x.Twins q q' →
        x.Outcomes ev state (ev.outcome q) (ev.outcome q') :=
      fun q q' move hq hq' => ih q move hq hq'
    obtain ⟨⟨r, r', hrows, hrow, hrow'⟩, hdepth, hworklist, hsession⟩ := id htwins
    obtain ⟨before, behind, hstands, hholds, halong⟩ := exists_stands hrows hrow hrow'
    by_cases hdeep : p.depth ≤ ev.limits.depth
    -- an empty worklist ends both runs, in documents that differ in the exchange only
    · cases hlist : p.worklist with
      | nil =>
        have hdone : ev.outcome p = (.ok p.document, p.session) := by
          rw [Evaluator.outcome_of_le hdeep, hlist]
          rfl
        have hdone' : ev.outcome p' = (.ok p'.document, p.session) := by
          rw [Evaluator.outcome_of_le (hdepth ▸ hdeep), hworklist, hlist, hsession]
          rfl
        rw [hdone, hdone']
        exact .kept hp hstands hholds.text_eq_changed
      | cons name rest =>
        have hnext : ev.Next p name := ⟨hdeep, by rw [hlist]; rfl⟩
        have hnext' := htwins.next hnext
        have hname := hnext.mem_names hp.listed
        have hsteady := h.steady p before behind hp hstands
        cases hpending : Evaluator.isPending p.document name with
        | true => exact outcomes_block h hlines hp htwins hnext hpending hlater
        | false =>
          have hfree' : Evaluator.isPending p'.document name = false := by
            rw [hholds.isPending_changed hsteady hname, hpending]
          have hmoved := hholds.movedOrder_orderFor hsteady hname
          cases horder : ev.orderFor p.document name with
          | call f span slots => exact outcomes_call h hp htwins hnext hpending horder hlater
          | refuse f =>
            rw [horder] at hmoved
            generalize horder' : ev.orderFor p'.document name = order at hmoved
            cases hmoved with
            -- a call without its list is refused in both
            | refuse =>
              rw [Evaluator.outcome_refuse hnext hpending horder,
                Evaluator.outcome_refuse hnext' hfree' horder', hsession]
              exact .failed _ _
          | leave =>
            rw [horder] at hmoved
            generalize horder' : ev.orderFor p'.document name = order at hmoved
            cases hmoved with
            | leave =>
              rw [Evaluator.outcome_leave hnext hpending horder,
                Evaluator.outcome_leave hnext' hfree' horder']
              have hmove := Evaluator.Move.leave hnext hpending horder
              exact hlater _ _ hmove (hp.tail hmove)
                ⟨⟨r, r', hrows, ⟨hrow.cells, hrow.places⟩, ⟨hrow'.cells, hrow'.places⟩⟩, hdepth,
                  congrArg List.tail hworklist, hsession⟩
    -- too deep a point fails in both runs
    · rw [Evaluator.outcome, Evaluator.outcome, if_neg hdeep, if_neg (hdepth ▸ hdeep), hsession]
      exact .failed _ _

/-- So from the start on the runs of the two texts come to the same. -/
theorem outcomes_start (h : x.Undisturbed ev state) (hlines : '\n' ∈ x.old ↔ '\n' ∈ x.new) :
    x.Outcomes ev state (ev.outcome (ev.start x.text state))
      (ev.outcome (ev.start x.changed state)) := by
  have hrow : HasRow (ev.start x.text state) (writtenRow 0 x.text) := hasRow_start _ _
  have htext : writtenRow 0 x.text = writtenRow 0 x.before ++
      (x.oldRow ++ writtenRow (x.before.length + x.old.length) x.behind) := by
    rw [text, writtenRow_append, writtenRow_append, Nat.zero_add, oldRow]
  -- the places in the changed text are of no account
  let row := writtenRow 0 x.before ++
    (x.newRow ++ writtenRow (x.before.length + x.old.length) x.behind)
  have hcells : (Document.source x.changed).cells = row.map Prod.fst := by
    rw [Document.cells_source, changed, List.map_append, List.map_append, List.map_append,
      List.map_append, map_fst_writtenRow, map_fst_newRow, map_fst_writtenRow]
  have hrow' : HasRow { ev.start x.changed state with places := row.map Prod.snd } row :=
    ⟨hcells, rfl⟩
  have htwins : x.Twins (ev.start x.text state)
      { ev.start x.changed state with places := row.map Prod.snd } :=
    h.twins hlines .refl ⟨_, _, htext, rfl⟩ hrow hrow' rfl rfl rfl rfl
  have hplaces : ev.outcome { ev.start x.changed state with places := row.map Prod.snd } =
      ev.outcome (ev.start x.changed state) := outcome_congr rfl rfl rfl rfl
  rw [← hplaces]
  exact outcomes_of_twins h hlines .refl htwins

end Exchange

end Stencil
