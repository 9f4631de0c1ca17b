import Stencil.Proofs.Escape
import Stencil.Proofs.Run
/-!
# Work is bounded by the source

Every unit of work is paid for by a `$` of the document: a call takes the `$` of its name away, a
block the `$` of its `$if[`, and results bring none back (`markers_replaced`, `markers_restarted`).
Arguments and conditions are copies, but each of them is resolved once and then goes away with the
call or the block that it belongs to, so its `$` pays for the work inside. In the same way every
level of nesting is paid for by the `[` around the part that is entered.

`Thrifty` says that resolving a document costs no more than its `$`; `thrifty_resolve` proves it by
induction on the levels. Along a run, the work done and the `$` left never exceed the `$` of the
source together (`Reached.work_le`), nor do the depth and the `[` left (`Reached.depth_le`).
-/

namespace Stencil

/-! ### What steps take out of a document -/

namespace Span

variable {α : Type}

/-- What is grafted comes in for what the span held. -/
theorem countP_graft {s : Span} (hs : s.start ≤ s.stop) (r l : List α) (p : α → Bool) :
    (s.graft r l).countP p + (s.cut l).countP p = r.countP p + l.countP p := by
  have hwhole := congrArg (List.countP p) (List.take_append_drop s.start l)
  have hrest := congrArg (List.countP p) (List.take_append_drop (s.stop - s.start) (l.drop s.start))
  rw [List.drop_drop, Nat.add_sub_cancel' hs] at hrest
  rw [List.countP_append] at hwhole hrest
  rw [graft, cut, List.countP_append, List.countP_append]
  omega

/-- What a span holds can be counted in two parts. -/
theorem countP_cut_eq_add (s : Span) (mid : Nat) (h₁ : s.start ≤ mid) (h₂ : mid ≤ s.stop)
    (l : List α) (p : α → Bool) :
    (s.cut l).countP p =
      ((mk s.start mid).cut l).countP p + ((mk mid s.stop).cut l).countP p := by
  rw [← List.countP_append, cut_append h₁ h₂]

/-- A span that holds a position holds its character. -/
theorem one_le_countP_cut {lo hi i : Nat} {l : List α} {a : α} {p : α → Bool}
    (ha : l[i]? = some a) (hp : p a = true) (hlo : lo ≤ i) (hhi : i < hi) :
    1 ≤ ((mk lo hi).cut l).countP p := by
  refine List.countP_pos_iff.2 ⟨a, List.mem_iff_getElem?.2 ⟨i - lo, ?_⟩, hp⟩
  rw [getElem?_cut, if_pos (by simp only; omega)]
  simpa only [Nat.add_sub_cancel' hlo] using ha

end Span

/-- How many markers of a kind a text has. -/
abbrev Text.markers (m : Char) (t : Text) : Nat := t.countP (· == m)

namespace CallSite.Covers

variable {d : Document} {name : Text} {span : Span} {slots : List (Option Span)}

/-- The slots hold the markers of a call except for those of its name. -/
theorem markers_slots_lt (h : Covers d name span slots) (hname : name.head? = some '$') :
    Text.markers '$' (Span.gather (slots.filterMap id) d.text) + 1 ≤
      Text.markers '$' (span.cut d.text) := by
  obtain ⟨inner, hinner, horder, -⟩ := h.slots_inOrder
  -- the name begins with a `$`, which is outside of the argument list
  have hpos : 0 < name.length := by
    rw [List.head?_eq_some_iff] at hname
    obtain ⟨stem, rfl⟩ := hname
    exact Nat.succ_pos _
  have hhead : d.text[span.start]? = some '$' := by
    rw [← Document.map_fst_cells, List.getElem?_map, h.head hname]
    rfl
  -- so the part before the argument list has one
  have hfront := Span.one_le_countP_cut (p := (· == '$')) hhead rfl le_rfl
    (show span.start < inner by omega)
  have hslots := horder.countP_gather_le (· == '$') d.text
  have hcut := Span.countP_cut_eq_add span inner (by omega) horder.le d.text (· == '$')
  simp only [Text.markers]
  omega

/-- A slot lies inside of the bracket that opens the argument list. -/
theorem markers_slot_lt (h : Covers d name span slots) {slot : Span} (hslot : some slot ∈ slots) :
    Text.markers '[' (slot.cut d.text) + 1 ≤ Text.markers '[' (span.cut d.text) := by
  obtain ⟨inner, hinner, horder, hopening⟩ := h.slots_inOrder
  obtain ⟨hlt, hopen⟩ := hopening (List.ne_nil_of_mem hslot)
  -- the bracket is before the slots, which lie within the argument list
  have hfront := Span.one_le_countP_cut (p := (· == '[')) hopen rfl
    (show span.start ≤ inner - 1 by omega) (show inner - 1 < inner by omega)
  have hmem : slot ∈ slots.filterMap id := List.mem_filterMap.2 ⟨some slot, hslot, rfl⟩
  have hone := Span.countP_cut_le_gather hmem (· == '[') d.text
  have hslots := horder.countP_gather_le (· == '[') d.text
  have hcut := Span.countP_cut_eq_add span inner (by omega) horder.le d.text (· == '[')
  simp only [Text.markers]
  omega

end CallSite.Covers

namespace Block.Laid

variable {t : Text} {b : Block} {chosen : List Span} {m : Char}

/-- A block holds, besides its conditions and its bodies, the markers of its `$if[`. -/
theorem markers_lt (h : Laid t b) (hchosen : chosen ∈ b.choices) (hm : m = '$' ∨ m = '[') :
    Text.markers m (Span.gather b.conditions t) + Text.markers m (Span.gather chosen t) + 1 ≤
      Text.markers m (b.span.cut t) := by
  have hparts := h.countP_gather_le hchosen (· == m) t
  -- both markers are in `$if[`
  have hfront : 1 ≤ ((Span.mk b.span.start (b.span.start + 4)).cut t).countP (· == m) := by
    rcases hm with rfl | rfl
    · exact Span.one_le_countP_cut h.opener.getElem?_start rfl le_rfl (by omega)
    · exact Span.one_le_countP_cut (h.opener.getElem?_bracket rfl) rfl (by simp) (by simp)
  have hstart := h.condition_start
  have hcond := h.condition_le
  have hregion := h.region_le
  have hstop := h.span_stop
  -- block, region, opener: what is counted is the opener, the conditions and the choice
  have hall := Span.countP_cut_eq_add b.span b.regionEnd (by omega) (by omega) t (· == m)
  have hin := Span.countP_cut_eq_add ⟨b.span.start, b.regionEnd⟩ (b.span.start + 4) (by simp)
    (by simp only; omega) t (· == m)
  simp only at hin
  simp only [Text.markers]
  omega

end Block.Laid

namespace Evaluator

variable {ev : Evaluator} {nested : Nested} {d d' : Document} {s s' : Session}

/-- The result of a call has no markers. -/
theorem markers_replaced {span : Span} (hspan : span.start ≤ span.stop) (result : Text) {m : Char}
    (hm : isMarker m = true) :
    Text.markers m (replaced d span result).text + Text.markers m (span.cut d.text) =
      Text.markers m d.text := by
  have hescape : Text.markers m (Text.escape result) = 0 :=
    Text.countP_escape (fun c hc => by rwa [beq_iff_eq.1 hc]) result
  have hgraft := Span.countP_graft hspan (Text.escape result) d.text (· == m)
  rw [replaced, Document.text_splice_eq_graft, Document.text_literal]
  simp only [Text.markers] at hescape ⊢
  omega

/-- A block takes away its own `$` and `[`, and those of its conditions. -/
theorem markers_restarted {b : Block} {chosen : List Span} (h : Block.Laid d.text b)
    (hchosen : chosen ∈ b.choices) {m : Char} (hm : m = '$' ∨ m = '[') :
    Text.markers m (restarted d b chosen).text +
      Text.markers m (Span.gather b.conditions d.text) + 1 ≤ Text.markers m d.text := by
  have hlt := h.markers_lt hchosen hm
  have hle := h.start_le_stop
  have hgraft := Span.countP_graft (s := b.span) (by omega) (Span.gather chosen d.text) d.text
    (· == m)
  rw [restarted, Document.text_splice_eq_graft, Document.text_gather_eq]
  simp only [Text.markers] at hlt ⊢
  omega

/-! ### Resolving is thrifty -/

/-- The step does at most so much work from a session on, whether it succeeds or not. -/
def Costs {α : Type} (x : Eval α) (s : Session) (n : Nat) : Prop := (x s).2.work ≤ s.work + n

namespace Costs

variable {α β : Type} {x : Eval α} {f : α → Eval β} {m n : Nat}

theorem pure (a : α) (s : Session) : Costs (Pure.pure a : Eval α) s 0 := le_rfl

theorem throw (e : EvalError) (s : Session) : Costs (throw e : Eval α) s 0 := le_rfl

/-- A greater bound is a bound. -/
theorem mono (h : Costs x s m) (hle : m ≤ n) : Costs x s n :=
  Nat.le_trans h (Nat.add_le_add_left hle _)

/-- The work of a sequence is at most that of both parts. -/
theorem bind (hx : Costs x s m) (hf : ∀ a s', x s = (.ok a, s') → Costs (f a) s' n) :
    Costs (x >>= f) s (m + n) := by
  rw [Costs, Eval.bind_apply]
  unfold Costs at hx hf
  -- an error ends the work
  rcases hrun : x s with ⟨e | a, s'⟩
  · rw [hrun] at hx
    simp only at hx ⊢
    omega
  · have hrest := hf a s' hrun
    rw [hrun] at hx
    simp only at hx ⊢
    omega

/-- What is done with a result in the end costs nothing. -/
theorem map (hx : Costs x s m) (g : α → β) : Costs (x >>= fun a => Pure.pure (g a)) s m :=
  hx.bind fun _ _ _ => pure _ _

/-- Counting costs the unit that it counts. -/
theorem countWork (s : Session) : Costs ev.countWork s 1 := by
  rw [Costs, countWork_apply]
  split <;> exact le_rfl

/-- Calling a function costs nothing beyond that. -/
theorem callFunction (f : Function) (args : List Arg) (s : Session) :
    Costs (ev.callFunction f args) s 0 :=
  (callFunction_work f args s).le

end Costs

/-- Resolving a document costs no more than its `$`. -/
def Thrifty (nested : Nested) : Prop := ∀ d s, Costs (nested d) s (Text.markers '$' d.text)

namespace Thrifty

/-- An argument costs no more than the `$` in it. -/
theorem argument (h : Thrifty nested) (slot : Option Span) (s : Session) :
    Costs (argument nested d slot) s (Text.markers '$' (Span.gather slot.toList d.text)) := by
  cases slot with
  | none => exact .pure _ _
  | some span =>
    have hpart := h (d.slice span) s
    rw [Document.text_slice_eq_cut] at hpart
    rw [Option.toList_some, Span.gather_cons, Span.gather_nil, List.append_nil]
    simp only [Evaluator.argument]
    split
    · exact hpart.map _
    · exact (Costs.pure _ _).mono (Nat.zero_le _)

/-- Together, the arguments cost no more than the `$` in all slots. -/
theorem arguments (h : Thrifty nested) (slots : List (Option Span)) (s : Session) :
    Costs (arguments nested d slots) s
      (Text.markers '$' (Span.gather (slots.filterMap id) d.text)) := by
  induction slots generalizing s with
  | nil => exact .pure _ _
  | cons slot slots ih =>
    -- the slots are gathered one behind the other
    have hgather : Span.gather ((slot :: slots).filterMap id) d.text =
        Span.gather slot.toList d.text ++ Span.gather (slots.filterMap id) d.text := by
      rw [← Span.gather_append]
      cases slot <;> rfl
    rw [Evaluator.arguments, List.mapM_cons, hgather, Text.markers, List.countP_append]
    exact (h.argument slot s).bind fun _ s₁ _ => (ih s₁).map _

/-- A call costs one unit and its arguments. -/
theorem callResult (ev : Evaluator) (h : Thrifty nested) (f : Function) (slots : List (Option Span))
    (s : Session) :
    Costs (ev.callResult nested d f slots) s
      (1 + Text.markers '$' (Span.gather (slots.filterMap id) d.text)) :=
  (Costs.countWork s).bind fun _ _ _ =>
    (h.arguments slots _).bind fun args s₂ _ => Costs.callFunction f args s₂

/-- A condition costs no more than the `$` in it. -/
theorem conditionHolds (h : Thrifty nested) (c : Span) (s : Session) :
    Costs (conditionHolds nested d c) s (Text.markers '$' (c.cut d.text)) := by
  have hpart := h (d.slice c) s
  rw [Document.text_slice_eq_cut] at hpart
  exact hpart.map _

/-- Conditions that are asked one after the other cost no more than their own `$`. -/
theorem refuted (h : Thrifty nested) {asked : List Span} (hasked : Refuted nested d asked s s') :
    s'.work ≤ s.work + Text.markers '$' (Span.gather asked d.text) := by
  induction hasked with
  | nil => exact Nat.le_add_right _ _
  | @cons c later s s₁ s' first _ ih =>
    have hfirst := h.conditionHolds (d := d) c s
    rw [Costs, first] at hfirst
    rw [Span.gather_cons, Text.markers, List.countP_append]
    simp only [Text.markers] at hfirst ih
    omega

/-- The conditions of alternatives cost no more than the `$` in them, by induction on the
alternatives. -/
theorem chooseAlternative (h : Thrifty nested) (otherwise : List Span)
    (alternatives : List Alternative) (s : Session) :
    Costs (chooseAlternative nested d otherwise alternatives) s
      (Text.markers '$' (Span.gather (alternatives.map (·.condition)) d.text)) := by
  induction alternatives generalizing s with
  | nil => exact .pure _ _
  | cons a later ih =>
    rw [List.map_cons, Span.gather_cons, Text.markers, List.countP_append]
    refine (h.conditionHolds a.condition s).bind fun holds s₁ _ => ?_
    cases holds with
    | true => exact (Costs.pure _ _).mono (Nat.zero_le _)
    | false => exact ih s₁

/-- A block costs one unit and its conditions. -/
theorem chosenBody (ev : Evaluator) (h : Thrifty nested) (b : Block) (s : Session) :
    Costs (ev.chosenBody nested d b) s
      (1 + Text.markers '$' (Span.gather b.conditions d.text)) := by
  refine (Costs.countWork s).bind fun _ _ _ => ?_
  rw [Block.conditions, Span.gather_cons, Text.markers, List.countP_append]
  refine (h.conditionHolds b.condition _).bind fun holds s₁ _ => ?_
  cases holds with
  | true => exact (Costs.pure _ _).mono (Nat.zero_le _)
  | false => exact h.chooseAlternative _ _ _

end Thrifty

/-! ### Passes

The `$` that a pass leaves in its document are there to pay for what comes after it. -/

def Pass.document : Pass → Document
  | .settled d => d
  | .restarted d => d

/-- The step costs at most so much, and what it gives leaves its `$` unspent. -/
structure Pays {α : Type} (view : α → Document) (x : Eval α) (s : Session) (n : Nat) : Prop where
  costs : Costs x s n
  left : ∀ a s', x s = (.ok a, s') → s'.work + Text.markers '$' (view a).text ≤ s.work + n

namespace Pays

variable {α β : Type} {view : α → Document} {view' : β → Document} {x : Eval α} {f : α → Eval β}
  {n : Nat}

/-- Nothing is done, so what the document holds is still there to pay. -/
theorem pure {a : α} (h : Text.markers '$' (view a).text ≤ n) (s : Session) :
    Pays view (Pure.pure a) s n := by
  refine ⟨(Costs.pure a s).mono (Nat.zero_le n), fun a' s' heq => ?_⟩
  cases heq
  exact Nat.add_le_add_left h _

theorem throw (e : EvalError) (s : Session) : Pays view (throw e) s n := by
  refine ⟨(Costs.throw e s).mono (Nat.zero_le n), fun a' s' heq => ?_⟩
  cases heq

/-- What the first part leaves in its document pays for the second part. -/
theorem bind (hx : Pays view x s n)
    (hf : ∀ a s', x s = (.ok a, s') → Pays view' (f a) s' (Text.markers '$' (view a).text)) :
    Pays view' (x >>= f) s n := by
  constructor
  · have hcosts := hx.costs
    rw [Costs, Eval.bind_apply]
    unfold Costs at hcosts
    rcases hrun : x s with ⟨e | a, s₁⟩
    · rwa [hrun] at hcosts
    · exact Nat.le_trans (hf a s₁ hrun).costs (hx.left a s₁ hrun)
  · intro b s' heq
    obtain ⟨a, s₁, hrun, hb⟩ := Eval.bind_eq_ok.1 heq
    exact Nat.le_trans ((hf a s₁ hrun).left b s' hb) (hx.left a s₁ hrun)

end Pays

theorem start_le_stop_of_covers {name : Text} {span : Span} {slots : List (Option Span)}
    (h : CallSite.Covers d name span slots) : span.start ≤ span.stop := by
  have := h.name_le
  omega

/-- A call is paid for by its own `$` and those in its slots; what is left pays for the rest. -/
theorem Thrifty.invoke (h : Thrifty nested) {name : Text} (hname : name.head? = some '$')
    (s : Session) : Pays id (ev.invoke nested d name) s (Text.markers '$' d.text) := by
  rw [invoke_eq]
  cases horder : ev.orderFor d name with
  | leave => exact .pure le_rfl s
  | refuse f => exact .throw _ s
  | call f span slots =>
    have hcovers := (orderFor_eq_call hname horder).1
    have hslots := hcovers.markers_slots_lt hname
    have hcosts := h.callResult ev (d := d) f slots s
    have hmarkers := markers_replaced (d := d) (start_le_stop_of_covers hcovers) (m := '$')
    simp only
    rw [perform_eq]
    -- whether the call succeeds or not, its cost is covered by the markers of its span
    constructor
    · have hspan := hmarkers [] rfl
      exact (hcosts.map _).mono (by omega)
    · intro d' s' heq
      obtain ⟨result, hresult, rfl⟩ := Eval.map_eq_ok.1 heq
      have hspan := hmarkers result rfl
      rw [Costs, hresult] at hcosts
      change s'.work + Text.markers '$' (replaced d span result).text ≤ _
      simp only at hcosts
      omega

/-- A block is paid for by its `$if[` and its conditions. -/
theorem Thrifty.resolveBlock (h : Thrifty nested) (s : Session) :
    Pays id (ev.resolveBlock nested d) s (Text.markers '$' d.text) := by
  rw [resolveBlock_eq]
  cases hb : Block.findInnermost d.text ev.strict with
  | error cause => exact .throw _ s
  | ok b =>
    have hlaid := Block.laid_of_findInnermost hb
    have hcosts := h.chosenBody ev (d := d) b s
    simp only
    -- any choice leaves room for the cost of the block
    constructor
    · have hbody := markers_restarted hlaid (List.mem_cons_self : b.body ∈ b.choices)
        (m := '$') (.inl rfl)
      exact (hcosts.map _).mono (by omega)
    · intro d' s' heq
      obtain ⟨chosen, hchosen, rfl⟩ := Eval.map_eq_ok.1 heq
      have hleft := markers_restarted hlaid (mem_choices_of_chosenBody hchosen)
        (m := '$') (.inl rfl)
      rw [Costs, hchosen] at hcosts
      change s'.work + Text.markers '$' (restarted d b chosen).text ≤ _
      simp only at hcosts
      omega

/-- A pass pays for itself, by induction on the names that are left. -/
theorem Thrifty.runPass (h : Thrifty nested) {worklist : List Text}
    (hlist : ∀ name ∈ worklist, name ∈ ev.names) (d : Document) (s : Session) :
    Pays Pass.document (ev.runPass nested worklist d) s (Text.markers '$' d.text) := by
  induction worklist generalizing d s with
  | nil => exact .pure le_rfl s
  | cons name rest ih =>
    rw [Evaluator.runPass]
    split
    · exact (h.resolveBlock s).bind fun d' s' _ => .pure le_rfl s'
    · have hname := head?_of_mem_names (hlist name List.mem_cons_self)
      exact (h.invoke hname s).bind fun d' s' _ =>
        ih (fun n hn => hlist n (List.mem_cons_of_mem name hn)) d' s'

/-- So do passes one behind the other. -/
theorem Thrifty.passes (h : Thrifty nested) (n : Nat) (d : Document) (s : Session) :
    Pays id (ev.passes nested n d) s (Text.markers '$' d.text) := by
  induction n generalizing d s with
  | zero => exact .pure le_rfl s
  | succ n ih =>
    rw [Evaluator.passes]
    refine (h.runPass (fun _ => Worklist.mem_of_mem_ofText) d s).bind fun pass s' _ => ?_
    cases pass with
    | settled d' => exact .pure le_rfl s'
    | restarted d' => exact ih d' s'

/-- Resolving a document costs no more than its `$`, however deep it is nested. -/
theorem thrifty_resolve (ev : Evaluator) (levels : Nat) : Thrifty (ev.resolve levels) := by
  induction levels with
  | zero => exact fun d s => (Costs.throw _ s).mono (Nat.zero_le _)
  | succ levels ih => exact fun d s => (ih.passes _ d s).costs

theorem thrifty_resolveAt (ev : Evaluator) (depth : Nat) : Thrifty (ev.resolveAt depth) :=
  thrifty_resolve ev _

/-! ### Runs

What a move takes out of the document, or what it leaves outside of the part that it enters, pays
for it. -/

variable {p q : Point}

/-- Conditions that were asked cost no more than their `$`. -/
theorem Refuted.work_le {depth : Nat} {asked : List Span}
    (h : Refuted (ev.resolveAt depth) d asked s.counted s') :
    s'.work ≤ s.work + 1 + Text.markers '$' (Span.gather asked d.text) :=
  (thrifty_resolveAt ev depth).refuted h

/-- The work done and the `$` left never grow together. -/
theorem Move.work_le (hp : ev.Listed p) (move : ev.Move p q) :
    q.session.work + Text.markers '$' q.document.text ≤
      p.session.work + Text.markers '$' p.document.text := by
  cases move with
  | leave => exact le_rfl
  | @call f span slots result s calls returns =>
    obtain ⟨name, hhead, -, hcovers⟩ := calls.covers hp
    have hslots := hcovers.markers_slots_lt hhead
    have hspan := markers_replaced (d := p.document) (start_le_stop_of_covers hcovers) result
      (m := '$') rfl
    -- the arguments and the call itself are covered by the markers of the span
    have hcosts := (thrifty_resolveAt ev (p.depth + 1)).callResult ev
      (d := p.document) f slots p.session
    rw [Costs, returns] at hcosts
    simp only [afterCall] at hcosts ⊢
    omega
  | @argument f span slot slots done more args s calls within slots_eq earlier marked =>
    obtain ⟨name, hhead, -, hcovers⟩ := calls.covers hp
    have hslots := hcovers.markers_slots_lt hhead
    have hspan := markers_replaced (d := p.document) (start_le_stop_of_covers hcovers) []
      (m := '$') rfl
    have hcosts := (thrifty_resolveAt ev (p.depth + 1)).arguments (d := p.document) done
      p.session.counted
    -- the arguments before this one paid with their own `$`
    have hsplit : slots.filterMap id = done.filterMap id ++ slot :: more.filterMap id := by
      rw [slots_eq, List.filterMap_append]
      rfl
    rw [hsplit, Span.gather_append, Span.gather_cons, Text.markers, List.countP_append,
      List.countP_append] at hslots
    rw [Costs, earlier] at hcosts
    simp only [enterPart, enter, Document.text_slice_eq_cut, Session.counted_work,
      Text.markers] at hcosts hspan hslots ⊢
    omega
  | @block b chosen s resolves chooses =>
    have hleft := markers_restarted resolves.laid (mem_choices_of_chosenBody chooses) (m := '$')
      (.inl rfl)
    -- the conditions and the block itself are covered by the markers of the block
    have hcosts := (thrifty_resolveAt ev (p.depth + 1)).chosenBody ev
      (d := p.document) b p.session
    rw [Costs, chooses] at hcosts
    simp only [afterBlock, enter] at hcosts ⊢
    omega
  | @condition b c asked later s resolves within conditions_eq earlier =>
    have hleft := markers_restarted resolves.laid (List.mem_cons_self : b.body ∈ b.choices)
      (m := '$') (.inl rfl)
    -- the conditions before this one paid with their own `$`
    have hcosts := earlier.work_le
    rw [conditions_eq, Span.gather_append, Span.gather_cons, Text.markers, Text.markers,
      List.countP_append, List.countP_append] at hleft
    simp only [enterPart, enter, Document.text_slice_eq_cut, Text.markers] at hcosts hleft ⊢
    omega

/-- The depth and the `[` left never grow together. -/
theorem Move.depth_le (hp : ev.Listed p) (move : ev.Move p q) :
    q.depth + Text.markers '[' q.document.text ≤ p.depth + Text.markers '[' p.document.text := by
  cases move with
  | leave => exact le_rfl
  -- a call stays on its level and brings no bracket back
  | @call f span slots result s calls returns =>
    obtain ⟨name, -, -, hcovers⟩ := calls.covers hp
    have hspan := markers_replaced (d := p.document) (start_le_stop_of_covers hcovers) result
      (m := '[') rfl
    simp only [afterCall]
    omega
  | @argument f span slot slots done more args s calls within slots_eq earlier marked =>
    obtain ⟨name, -, -, hcovers⟩ := calls.covers hp
    have hmem : some slot ∈ slots := by rw [slots_eq]; simp
    -- the `[` of the argument list pays for the level
    have hslot := hcovers.markers_slot_lt hmem
    have hspan := markers_replaced (d := p.document) (start_le_stop_of_covers hcovers) []
      (m := '[') rfl
    simp only [enterPart, enter, Document.text_slice_eq_cut]
    omega
  | @block b chosen s resolves chooses =>
    have hleft := markers_restarted resolves.laid (mem_choices_of_chosenBody chooses) (m := '[')
      (.inr rfl)
    simp only [afterBlock, enter]
    omega
  | @condition b c asked later s resolves within conditions_eq earlier =>
    have hleft := markers_restarted resolves.laid (List.mem_cons_self : b.body ∈ b.choices)
      (m := '[') (.inr rfl)
    -- the brackets of the condition are some of the block, whose own pays for the level
    have hmem : c ∈ b.conditions := by rw [conditions_eq]; simp
    have hone := Span.countP_cut_le_gather hmem (· == '[') p.document.text
    simp only [enterPart, enter, Document.text_slice_eq_cut, Text.markers] at hleft ⊢
    omega

/-- A move takes a `$` away, or else it only leaves a name of the worklist behind. -/
theorem Move.markers_lt (hp : ev.Listed p) (move : ev.Move p q) :
    Text.markers '$' q.document.text < Text.markers '$' p.document.text ∨
      q.document = p.document ∧ q.worklist.length < p.worklist.length := by
  cases move with
  | leave next =>
    -- nothing of the document is taken, only the name
    refine .inr ⟨rfl, ?_⟩
    have hpos : 0 < p.worklist.length := List.length_pos_of_mem (List.mem_of_mem_head? next.2)
    simp only [List.length_tail]
    omega
  | @call f span slots result s calls returns =>
    obtain ⟨name, hhead, -, hcovers⟩ := calls.covers hp
    have hslots := hcovers.markers_slots_lt hhead
    have hspan := markers_replaced (d := p.document) (start_le_stop_of_covers hcovers) result
      (m := '$') rfl
    simp only [afterCall]
    omega
  -- the slot lies within the call, whose own `$` is outside of it
  | @argument f span slot slots done more args s calls within slots_eq earlier marked =>
    obtain ⟨name, hhead, -, hcovers⟩ := calls.covers hp
    have hslots := hcovers.markers_slots_lt hhead
    have hspan := markers_replaced (d := p.document) (start_le_stop_of_covers hcovers) []
      (m := '$') rfl
    have hmem : slot ∈ slots.filterMap id := by rw [slots_eq]; simp
    have hone := Span.countP_cut_le_gather hmem (· == '$') p.document.text
    simp only [enterPart, enter, Document.text_slice_eq_cut, Text.markers] at hslots hspan ⊢
    omega
  | @block b chosen s resolves chooses =>
    have hleft := markers_restarted resolves.laid (mem_choices_of_chosenBody chooses) (m := '$')
      (.inl rfl)
    simp only [afterBlock, enter]
    omega
  -- the condition lies within the block, whose own `$` is outside of it
  | @condition b c asked later s resolves within conditions_eq earlier =>
    have hleft := markers_restarted resolves.laid (List.mem_cons_self : b.body ∈ b.choices)
      (m := '$') (.inl rfl)
    have hmem : c ∈ b.conditions := by rw [conditions_eq]; simp
    have hone := Span.countP_cut_le_gather hmem (· == '$') p.document.text
    simp only [enterPart, enter, Document.text_slice_eq_cut, Text.markers] at hleft ⊢
    omega

end Evaluator

end Stencil
