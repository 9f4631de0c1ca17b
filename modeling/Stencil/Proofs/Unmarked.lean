import Stencil.Proofs.Longest
import Stencil.Proofs.Slots
import Stencil.Proofs.Success
/-!
# Slots without markers

A slot of a call is resolved only if its source text has a marker, and then what is resolved is read
and trimmed. A slot without markers is only read. Nothing is lost by that (`arguments_eq_resolved`):
such a slot has no `$` at all, since what functions returned has none either
(`Reached.worklist_of_unmarked`), so that resolving it would do nothing
(`resolveAt_of_worklist_eq_nil`); and a slot is cut without blanks at its ends, and codes stand for no
blanks, so that there would be nothing to trim (`rendered_of_trimmed`).

Whatever the slots of a call are like, the arguments that its function is handed are trimmed texts
(`trimmed_of_mem_arguments`). What an evaluation logs are the arguments of calls of its run
(`made_of_mem_calls`).
-/

namespace Stencil

/-! ### Slots -/

namespace Bracket

variable {t : Text} {s slot : Span}

theorem trimmed_of_mem_slots (hle : s.start ≤ s.stop) (hs : s.stop ≤ t.length)
    (h : some slot ∈ slots t s) : (t.slice slot).Trimmed := by
  obtain ⟨p, hp, heq⟩ := List.mem_map.1 h
  obtain ⟨part, hpart, rfl⟩ := List.mem_map.1 ((dropEmptyLast_sublist _).subset hp)
  have hstop := ((pieces_inOrder hle hs).bounds hpart).2.2.trans hs
  split at heq
  · cases heq
  · cases heq
    rw [Text.slice_trimSpan hstop]
    exact Text.trimmed_trim _

/-- Of blank pieces at the end only the last one is dropped, so the last slot is empty where two are
blank. -/
theorem getLast?_slots_eq_none_iff (hle : s.start ≤ s.stop) (hs : s.stop ≤ t.length) :
    (slots t s).getLast? = some none ↔ ∃ kept a b, pieces t s = kept ++ [a, b] ∧
      Text.isBlankText (t.slice a) = true ∧ Text.isBlankText (t.slice b) = true := by
  have hbounds : ∀ part ∈ pieces t s, part.stop ≤ t.length :=
    fun part hpart => ((pieces_inOrder hle hs).bounds hpart).2.2.trans hs
  rcases List.eq_nil_or_concat' (pieces t s) with hpieces | ⟨before, b, hpieces⟩
  · have hnil : slots t s = [] := by rw [slots, hpieces]; rfl
    rw [hnil, hpieces]
    simp
  · rw [hpieces] at hbounds ⊢
    have hb := hbounds b (List.mem_append_right _ List.mem_cons_self)
    rw [slots_of_pieces hpieces hb, List.getLast?_map, Option.map_eq_some_iff]
    constructor
    · rintro ⟨a, ha, hnone⟩
      split at ha
      · next hblank =>
        obtain ⟨kept, rfl⟩ := List.getLast?_eq_some_iff.1 ha
        have hmem : a ∈ kept ++ [a] ++ [b] := by simp
        exact ⟨kept, a, b, by rw [List.append_assoc]; rfl,
          (slotOf_eq_none_iff (hbounds a hmem)).1 hnone, hblank⟩
      · next hblank =>
        rw [List.getLast?_concat, Option.some_inj] at ha
        subst ha
        exact absurd ((slotOf_eq_none_iff hb).1 hnone) hblank
    · rintro ⟨kept, a, b', heq, ha, hb'⟩
      have hsplit : kept ++ [a, b'] = kept ++ [a] ++ [b'] := by rw [List.append_assoc]; rfl
      obtain ⟨rfl, hlast⟩ := List.append_inj' (heq.trans hsplit) rfl
      obtain rfl := List.singleton_inj.1 hlast
      rw [if_pos hb']
      refine ⟨a, List.getLast?_concat, (slotOf_eq_none_iff (hbounds a ?_)).2 ha⟩
      simp

end Bracket

namespace Evaluator

variable {ev : Evaluator} {source : Text} {state : ExecutionState} {p q : Point} {d : Document}
  {f : Function} {span slot : Span} {slots : List (Option Span)} {nested : Nested}
  {args : List Arg} {s s' : Session} {record : CallRecord}

theorem Calls.trimmed (hcalls : ev.Calls p f span slots) (hp : ev.Listed p)
    (hslot : some slot ∈ slots) : (p.document.slice slot).text.Trimmed := by
  obtain ⟨name, -, -, hcovers⟩ := hcalls.covers hp
  have hstop := hcovers.stop_le
  rw [Document.text_slice]
  rcases hcovers.shape with ⟨rfl, -, -⟩ | ⟨opening, -, hlt, -, rfl⟩
  · cases hslot
  · exact Bracket.trimmed_of_mem_slots (by simp only; omega) (by simp only; omega) hslot

/-- The last two pieces between the brackets of a call are blank. -/
def EndsBlank (t : Text) (f : Function) (span : Span) : Prop :=
  ∃ opening kept a b,
    CallSite.listOpening? t (span.start + f.name.text.length) = some opening ∧
    Bracket.pieces t ⟨opening + 1, span.stop - 1⟩ = kept ++ [a, b] ∧
    Text.isBlankText (t.slice a) = true ∧ Text.isBlankText (t.slice b) = true

theorem Calls.getLast?_eq_none_iff (hcalls : ev.Calls p f span slots) (hp : ev.Listed p) :
    slots.getLast? = some none ↔ EndsBlank p.document.text f span := by
  obtain ⟨name, hnext, hfree, horder⟩ := hcalls
  have hname := hnext.mem_names hp
  have hcovers := (orderFor_eq_call (head?_of_mem_names hname) horder).1
  have hstop := hcovers.stop_le
  unfold EndsBlank
  rw [name_of_orderFor hname hfree horder]
  rcases hcovers.shape with ⟨rfl, -, hnone⟩ | ⟨opening, hopening, hlt, -, rfl⟩
  · simp [hnone]
  · rw [hopening, Bracket.getLast?_slots_eq_none_iff (by simp only; omega) (by simp only; omega)]
    simp

/-! ### Slots that need not be resolved -/

/-- The argument in a slot, resolved whether it has markers or not. -/
def resolvedArgument (nested : Nested) (d : Document) : Option Span → Eval Arg
  | none => pure none
  | some slot => do return some (← nested (d.slice slot)).rendered

theorem rendered_of_trimmed (h : d.text.Trimmed) : d.rendered = Text.unescape d.text :=
  h.unescape.trim_eq

/-- A part without markers in its source has no `$`. -/
theorem Reached.worklist_of_unmarked (hp : ev.Reached source state p)
    (h : (p.document.slice slot).hasMarker = false) :
    Worklist.ofText ev.names (p.document.slice slot).text = [] := by
  refine ofText_eq_nil (List.countP_eq_zero.2 fun c hc => ?_)
  have hmarked : Marked (p.document.slice slot).cells := by
    rw [Document.cells_slice_eq_cut]
    exact hp.marked.subset fun _ => Span.mem_of_mem_cut
  have hplain := Document.isMarker_of_hasMarker_eq_false hmarked h hc
  rw [beq_iff_eq]
  rintro rfl
  cases hplain

/-- Resolving a document in which no name stands does nothing. -/
theorem resolveAt_of_worklist_eq_nil {depth : Nat} (hdepth : depth ≤ ev.limits.depth)
    (h : Worklist.ofText ev.names d.text = []) (s : Session) :
    ev.resolveAt depth d s = (.ok d, s) := by
  rw [resolveAt_eq_afterPass hdepth, h]
  rfl

/-- Where nothing is to be done a run does not go on. -/
theorem not_move_of_worklist_eq_nil (h : p.worklist = []) : ¬ ev.Move p q := by
  have hnot : ∀ name, ¬ ev.Next p name := by
    intro name hnext
    have hhead := hnext.2
    rw [h] at hhead
    cases hhead
  intro move
  cases move with
  | leave next => exact hnot _ next
  | call calls => exact hnot _ calls.choose_spec.1
  | argument calls => exact hnot _ calls.choose_spec.1
  | block resolves => exact hnot _ resolves.choose_spec.1
  | condition resolves => exact hnot _ resolves.choose_spec.1

theorem argument_eq_resolved (hp : ev.Reached source state p) (hcalls : ev.Calls p f span slots)
    (hdepth : p.depth + 1 ≤ ev.limits.depth) {slot : Option Span} (hslot : slot ∈ slots)
    (s : Session) :
    argument (ev.resolveAt (p.depth + 1)) p.document slot s =
      resolvedArgument (ev.resolveAt (p.depth + 1)) p.document slot s := by
  cases slot with
  | none => rfl
  | some slot =>
    rw [argument, resolvedArgument]
    split
    · rfl
    · next hmark =>
      have hnames := hp.worklist_of_unmarked (Bool.eq_false_iff.2 hmark)
      rw [Eval.bind_of_ok (resolveAt_of_worklist_eq_nil hdepth hnames s),
        rendered_of_trimmed (hcalls.trimmed hp.listed hslot)]

/-- It makes no difference to the arguments of a call which slots are resolved. -/
theorem arguments_eq_resolved (hp : ev.Reached source state p) (hcalls : ev.Calls p f span slots)
    (hdepth : p.depth + 1 ≤ ev.limits.depth) (s : Session) :
    arguments (ev.resolveAt (p.depth + 1)) p.document slots s =
      slots.mapM (resolvedArgument (ev.resolveAt (p.depth + 1)) p.document) s := by
  have heq : ∀ slot ∈ slots, ∀ s, argument (ev.resolveAt (p.depth + 1)) p.document slot s =
      resolvedArgument (ev.resolveAt (p.depth + 1)) p.document slot s :=
    fun _ hslot => argument_eq_resolved hp hcalls hdepth hslot
  clear hcalls
  induction slots generalizing s with
  | nil => rfl
  | cons slot slots ih =>
    have hmore := fun s => ih s fun slot hslot => heq slot (List.mem_cons_of_mem _ hslot)
    rw [arguments, List.mapM_cons, List.mapM_cons, Eval.bind_apply, Eval.bind_apply,
      heq slot List.mem_cons_self]
    split
    · next a s' _ =>
      rw [Eval.bind_apply, Eval.bind_apply, ← hmore s']
      rfl
    · rfl

/-! ### What functions are handed -/

/-- The text of an argument has no blanks at its ends, if its slot has none. -/
theorem trimmed_of_argument {slot : Option Span} {a : Arg}
    (hslot : ∀ span, slot = some span → (d.slice span).text.Trimmed)
    (h : argument nested d slot s = (.ok a, s')) : ∀ t, a = some t → t.Trimmed := by
  rintro t rfl
  cases slot with
  | none => cases h
  | some span =>
    rcases argument_some_eq_ok.1 h with ⟨-, part, -, ha⟩ | ⟨-, ha, -⟩
    · rw [Option.some.inj ha]
      exact Text.trimmed_trim _
    · rw [Option.some.inj ha]
      exact (hslot span rfl).unescape

theorem trimmed_of_mem_arguments
    (hslots : ∀ span, some span ∈ slots → (d.slice span).text.Trimmed)
    (h : arguments nested d slots s = (.ok args, s')) : ∀ t, some t ∈ args → t.Trimmed := by
  induction slots using List.reverseRecOn generalizing args s' with
  | nil =>
    cases h
    exact fun t ht => absurd ht List.not_mem_nil
  | append_singleton slots slot ih =>
    obtain ⟨before, a, s₁, hbefore, hlast, rfl⟩ := arguments_concat_eq_ok.1 h
    intro t ht
    rcases List.mem_append.1 ht with ht | ht
    · exact ih (fun span hspan => hslots span (List.mem_append_left _ hspan)) hbefore t ht
    · refine trimmed_of_argument (fun span hspan => hslots span ?_) hlast t
        (List.mem_singleton.1 ht).symm
      exact List.mem_append_right _ (List.mem_singleton.2 hspan.symm)

/-- The last argument is absent if its slot is empty. -/
theorem getLast?_arguments (h : arguments nested d slots s = (.ok args, s')) :
    args.getLast? = some none ↔ slots.getLast? = some none := by
  rcases List.eq_nil_or_concat' slots with rfl | ⟨slots, slot, rfl⟩
  · cases h
    simp
  · obtain ⟨before, a, s₁, -, hlast, rfl⟩ := arguments_concat_eq_ok.1 h
    rw [List.getLast?_concat, List.getLast?_concat, Option.some_inj, Option.some_inj]
    cases slot with
    | none =>
      cases hlast
      exact ⟨fun _ => rfl, fun _ => rfl⟩
    | some slot =>
      rcases argument_some_eq_ok.1 hlast with ⟨-, part, -, rfl⟩ | ⟨-, rfl, -⟩ <;> simp

/-! ### The log of a run -/

/-- A function is called in the run and logged, whether it returns or fails. -/
def Made (ev : Evaluator) (source : Text) (state : ExecutionState) (p : Point) (f : Function)
    (span : Span) (record : CallRecord) : Prop :=
  ∃ slots s, ev.Reached source state p ∧ ev.Calls p f span slots ∧
    arguments (ev.resolveAt (p.depth + 1)) p.document slots p.session.counted =
      (.ok record.args, s) ∧
    record = ⟨f.name.text, record.args, (f.call (ev.contextIn f s) record.args s.state).1⟩

/-- All calls in the log were made in the run. -/
def AllMade (ev : Evaluator) (source : Text) (state : ExecutionState) (s : Session) : Prop :=
  ∀ record ∈ s.log, ∃ p f span, ev.Made source state p f span record

theorem allMade_callFunction (hp : ev.Reached source state p) (hcalls : ev.Calls p f span slots)
    (hargs : arguments (ev.resolveAt (p.depth + 1)) p.document slots p.session.counted =
      (.ok args, s)) (h : ev.AllMade source state s) :
    ev.AllMade source state (ev.callFunction f args s).2 := by
  intro record hrecord
  rw [(callFunction_outcome ev f args s).1, List.mem_cons] at hrecord
  rcases hrecord with rfl | hrecord
  · exact ⟨p, f, span, slots, s, hp, hcalls, hargs, rfl⟩
  · exact h record hrecord

theorem alongMade (ev : Evaluator) (source : Text) (state : ExecutionState) :
    ev.Along source state fun s s' => ev.AllMade source state s → ev.AllMade source state s' where
  refl s h := h
  trans h h' hs := h' (h hs)
  counted s h := h
  called hp hcalls hargs hcall h := by
    have hmade := allMade_callFunction hp hcalls hargs h
    rwa [hcall] at hmade

/-- What an evaluation reports are calls that were made in its run, also if it fails. -/
theorem made_of_mem_calls (h : record ∈ (ev.evaluate source state).calls) :
    ∃ p f span, ev.Made source state p f span record := by
  have hstart : ev.Reached source state (ev.start source state) := .refl
  have hmade := (alongMade ev source state).outcome
    (fun hp hcalls hargs => allMade_callFunction hp hcalls hargs) hstart
    fun record hrecord => absurd hrecord List.not_mem_nil
  rcases houtcome : ev.outcome (ev.start source state) with ⟨e | d, s⟩
  · rw [evaluate_of_error houtcome, Session.calls, List.mem_reverse] at h
    rw [houtcome] at hmade
    exact hmade record h
  · rw [evaluate_of_ok houtcome, Session.calls, List.mem_reverse] at h
    rw [houtcome] at hmade
    exact hmade record h

/-- Wherever a run comes to a call, a slot without markers could be resolved as well: nothing in it
would be called or replaced, in no session, and it would give the argument that is read from it. What
the function is handed are texts without blanks at their ends, and the last argument is absent only
where the list ends with two blank pieces, the latter of which gives no argument. The same is seen of
the calls that an evaluation reports. -/
theorem unmarked_slots_pass (ev : Evaluator) (source : Text) (state : ExecutionState) :
    (∀ p f span slots, ev.Reached source state p → ev.Calls p f span slots →
      (∀ slot, some slot ∈ slots → (p.document.slice slot).hasMarker = false →
        (∀ depth places s q, ¬ ev.Move (ev.enter depth (p.document.slice slot) places s) q) ∧
        (∀ depth ≤ ev.limits.depth, ∀ s, ev.resolveAt depth (p.document.slice slot) s =
          (.ok (p.document.slice slot), s)) ∧
        (p.document.slice slot).rendered = Text.unescape (p.document.slice slot).text) ∧
      (p.depth + 1 ≤ ev.limits.depth → ∀ s,
        arguments (ev.resolveAt (p.depth + 1)) p.document slots s =
          slots.mapM (resolvedArgument (ev.resolveAt (p.depth + 1)) p.document) s) ∧
      (∀ args s s', arguments (ev.resolveAt (p.depth + 1)) p.document slots s = (.ok args, s') →
        (∀ t, some t ∈ args → t.Trimmed) ∧
        (args.getLast? = some none ↔ EndsBlank p.document.text f span))) ∧
    (∀ record ∈ (ev.evaluate source state).calls,
      (∀ t, some t ∈ record.args → t.Trimmed) ∧
      (record.args.getLast? = some none → ∃ p f span,
        ev.Made source state p f span record ∧ EndsBlank p.document.text f span)) := by
  have hreceived : ∀ {p f span slots args s s'}, ev.Reached source state p →
      ev.Calls p f span slots →
      arguments (ev.resolveAt (p.depth + 1)) p.document slots s = (.ok args, s') →
      (∀ t, some t ∈ args → t.Trimmed) ∧
        (args.getLast? = some none ↔ EndsBlank p.document.text f span) :=
    fun hp hcalls hargs =>
      ⟨trimmed_of_mem_arguments (fun _ hslot => hcalls.trimmed hp.listed hslot) hargs,
        (getLast?_arguments hargs).trans (hcalls.getLast?_eq_none_iff hp.listed)⟩
  refine ⟨fun p f span slots hp hcalls => ⟨fun slot hslot hmark => ?_,
    fun hdepth => arguments_eq_resolved hp hcalls hdepth,
    fun args s s' => hreceived hp hcalls⟩, fun record hrecord => ?_⟩
  · have hnames := hp.worklist_of_unmarked hmark
    exact ⟨fun depth places s q => not_move_of_worklist_eq_nil hnames,
      fun depth hdepth => resolveAt_of_worklist_eq_nil hdepth hnames,
      rendered_of_trimmed (hcalls.trimmed hp.listed hslot)⟩
  · obtain ⟨p, f, span, hmade⟩ := made_of_mem_calls hrecord
    obtain ⟨slots, s, hp, hcalls, hargs, -⟩ := id hmade
    obtain ⟨htrimmed, hlast⟩ := hreceived hp hcalls hargs
    exact ⟨htrimmed, fun habsent => ⟨p, f, span, hmade, hlast.1 habsent⟩⟩

theorem slot_with_code_passes :
    let part := (Document.source "$f[ a#RIGHT# ]".toList).slice ⟨4, 12⟩
    (oneFunction.resolveAt 1 part (.start .initial)).1 = .ok part ∧
      part.rendered = "a]".toList := by
  have hpass := (unmarked_slots_pass oneFunction "$f[ a#RIGHT# ]".toList .initial).1 _ _ _ _ .refl
    ⟨['$', 'f'], ⟨by decide, rfl⟩, rfl, rfl⟩
  obtain ⟨-, hresolve, hrendered⟩ := hpass.1 ⟨4, 12⟩ (by decide +kernel) (by decide +kernel)
  exact ⟨congrArg Prod.fst (hresolve 1 (by decide) _), hrendered.trans (by decide +kernel)⟩

/-- Of two empty slots at the end only one is dropped. -/
theorem last_argument_is_absent :
    ¬ ∀ record ∈ (oneFunction.evaluate "$f[a;;]".toList .initial).calls,
      record.args.getLast? ≠ some none := by
  decide +kernel

end Evaluator

end Stencil
