import Stencil.Evaluation.Basic
import Stencil.Proofs.Block
import Stencil.Proofs.CallSite
/-!
# What one step does

A step of an evaluation is a function on sessions. `Eval.bind_eq_ok` and `Eval.bind_eq_error` take a
sequence of steps apart. Calls and blocks are cut in two: what happens in the session
(`callResult`, `chosenBody`), and what becomes of the document, which depends on the session only
through the result and the choice (`perform_eq`, `resolveBlock_eq`).
-/

namespace Stencil

/-! ### Laws of steps -/

namespace Eval

variable {α β : Type} {x : Eval α} {f : α → Eval β} {s s' : Session} {a : α} {e : EvalError}

/-- A bind runs the first part and, unless it ends in an error, the second one on what is left. -/
theorem bind_apply (x : Eval α) (f : α → Eval β) (s : Session) :
    (x >>= f) s =
      match x s with
      | (.ok a, s') => f a s'
      | (.error e, s') => (.error e, s') := by
  change ExceptT.bindCont f (x s).1 (x s).2 = _
  rcases x s with ⟨_ | _, _⟩ <;> rfl

theorem bind_of_ok (h : x s = (.ok a, s')) : (x >>= f) s = f a s' := by
  rw [bind_apply, h]

theorem bind_of_error (h : x s = (.error e, s')) : (x >>= f) s = (.error e, s') := by
  rw [bind_apply, h]

theorem exists_session (h : (x s).1 = .ok a) : ∃ s', x s = (.ok a, s') := ⟨(x s).2, Prod.ext h rfl⟩

/-- A sequence succeeds where both of its parts do, the second in the session of the first. -/
theorem bind_eq_ok {b : β} :
    (x >>= f) s = (.ok b, s') ↔ ∃ a s₁, x s = (.ok a, s₁) ∧ f a s₁ = (.ok b, s') := by
  rcases hx : x s with ⟨e | a, s₁⟩
  · rw [bind_of_error hx]
    constructor
    · intro h
      cases h
    · rintro ⟨a, s₁, h, -⟩
      cases h
  · rw [bind_of_ok hx]
    constructor
    · exact fun h => ⟨a, s₁, rfl, h⟩
    · rintro ⟨a, s₁, h, h'⟩
      cases h
      exact h'

/-- A sequence ends in an error where its first part does, or where its second part does after the
first. -/
theorem bind_eq_error :
    (x >>= f) s = (.error e, s') ↔
      x s = (.error e, s') ∨ ∃ a s₁, x s = (.ok a, s₁) ∧ f a s₁ = (.error e, s') := by
  rcases hx : x s with ⟨e | a, s₁⟩
  · rw [bind_of_error hx]
    constructor
    · intro h
      cases h
      exact .inl rfl
    · rintro (h | ⟨a, s₁, h, -⟩)
      · cases h
        rfl
      · cases h
  · rw [bind_of_ok hx]
    constructor
    · exact fun h => .inr ⟨a, s₁, rfl, h⟩
    · rintro (h | ⟨a, s₁, h, h'⟩)
      · cases h
      · cases h
        exact h'

/-- What is only computed from a result does not touch the session. -/
theorem map_eq_ok {g : α → β} {b : β} :
    (x >>= fun a => pure (g a)) s = (.ok b, s') ↔ ∃ a, x s = (.ok a, s') ∧ g a = b := by
  rw [bind_eq_ok]
  constructor
  · rintro ⟨a, s₁, h, h'⟩
    cases h'
    exact ⟨a, h, rfl⟩
  · rintro ⟨a, h, rfl⟩
    exact ⟨a, s', h, rfl⟩

theorem map_eq_error {g : α → β} :
    (x >>= fun a => pure (g a)) s = (.error e, s') ↔ x s = (.error e, s') := by
  rw [bind_eq_error]
  constructor
  · rintro (h | ⟨a, s₁, -, h'⟩)
    · exact h
    · cases h'
  · exact .inl

end Eval

namespace Session

/-- The session with one more unit of work. -/
def counted (s : Session) : Session := { s with work := s.work + 1 }

@[simp] theorem counted_work (s : Session) : s.counted.work = s.work + 1 := rfl

end Session

namespace Evaluator

variable {ev : Evaluator} {nested : Nested} {d d' : Document} {s s' : Session}

/-- Work is counted before it is held against the limit, so the unit over the limit is counted
too. -/
theorem countWork_apply (s : Session) :
    ev.countWork s =
      if ev.limits.invocations < s.work + 1 then
        (.error (.tooManyInvocations ev.limits.invocations), s.counted)
      else (.ok (), s.counted) := by
  have hcount : (modify fun s => { s with work := s.work + 1 } : Eval Unit) s =
      (.ok (), s.counted) := rfl
  have hget : (get : Eval Session) s.counted = (.ok s.counted, s.counted) := rfl
  rw [countWork, Eval.bind_of_ok hcount, Eval.bind_of_ok hget, Session.counted_work]
  split
  · rfl
  · rfl

theorem countWork_eq_ok : ev.countWork s = (.ok (), s') ↔
    s.work + 1 ≤ ev.limits.invocations ∧ s' = s.counted := by
  rw [countWork_apply]
  split
  · next h =>
    constructor
    · intro h'
      cases h'
    · rintro ⟨hle, -⟩
      omega
  · next h =>
    constructor
    · intro h'
      cases h'
      exact ⟨Nat.le_of_not_lt h, rfl⟩
    · rintro ⟨-, rfl⟩
      rfl

/-- The error is there for work over the limit only, and it names the limit. -/
theorem countWork_eq_error {e : EvalError} : ev.countWork s = (.error e, s') ↔
    ev.limits.invocations < s.work + 1 ∧ e = .tooManyInvocations ev.limits.invocations ∧
      s' = s.counted := by
  rw [countWork_apply]
  split
  · next h =>
    constructor
    · intro h'
      cases h'
      exact ⟨h, rfl, rfl⟩
    · rintro ⟨-, rfl, rfl⟩
      rfl
  · next h =>
    constructor
    · intro h'
      cases h'
    · rintro ⟨hlt, -⟩
      exact absurd hlt h

/-! ### Calls -/

/-- The result of a call: the work is counted, the arguments are resolved in order, and the function
is called. -/
def callResult (ev : Evaluator) (nested : Nested) (d : Document) (f : Function)
    (slots : List (Option Span)) : Eval Text := do
  ev.countWork
  let args ← arguments nested d slots
  ev.callFunction f args

/-- The document with a call in a span replaced by its result. -/
def replaced (d : Document) (span : Span) (result : Text) : Document :=
  d.splice span (.literal (Text.escape result))

/-- The cells of the result are literal, all others stay as they are. -/
theorem cells_replaced (d : Document) (span : Span) (result : Text) :
    (replaced d span result).cells =
      span.graft ((Text.escape result).map (·, Origin.literal)) d.cells := by
  -- what is put in is an escaped text, whose cells are literal
  rw [replaced, Document.cells_splice_eq_graft, Document.cells_literal]

/-- What becomes of the document depends on a session only through the result of the call. -/
theorem perform_eq (f : Function) (span : Span) (slots : List (Option Span)) :
    ev.perform nested d f span slots =
      ev.callResult nested d f slots >>= fun result => pure (replaced d span result) := by
  simp only [perform, callResult, replaced, bind_assoc]

/-- An argument fails on the level below, and only if it has a marker. -/
theorem argument_eq_error {slot : Option Span} {e : EvalError}
    (h : argument nested d slot s = (.error e, s')) :
    ∃ span, slot = some span ∧ (d.slice span).hasMarker = true ∧
      nested (d.slice span) s = (.error e, s') := by
  cases slot with
  | none => cases h
  | some span =>
    simp only [argument] at h
    split at h
    · next hmark => exact ⟨span, rfl, hmark, Eval.map_eq_error.1 h⟩
    · cases h

/-- Resolving arguments fails where one of them does, after those before it were resolved. -/
theorem arguments_eq_error {slots : List (Option Span)} {e : EvalError}
    (h : arguments nested d slots s = (.error e, s')) :
    ∃ done span more args s₁, slots = done ++ some span :: more ∧
      arguments nested d done s = (.ok args, s₁) ∧ (d.slice span).hasMarker = true ∧
      nested (d.slice span) s₁ = (.error e, s') := by
  induction slots generalizing s with
  | nil => cases h
  | cons slot slots ih =>
    rw [arguments, List.mapM_cons, Eval.bind_eq_error] at h
    rcases h with h | ⟨a, s₁, hfirst, h⟩
    -- it is the first slot, so nothing was resolved before it
    · obtain ⟨span, rfl, hmark, herror⟩ := argument_eq_error h
      exact ⟨[], span, slots, [], s, rfl, rfl, hmark, herror⟩
    -- the first slot is one of those that were resolved before
    · obtain ⟨done, span, more, args, s₂, rfl, hdone, hmark, herror⟩ := ih (Eval.map_eq_error.1 h)
      refine ⟨slot :: done, span, more, a :: args, s₂, rfl, ?_, hmark, herror⟩
      rw [arguments, List.mapM_cons, Eval.bind_of_ok hfirst]
      exact Eval.map_eq_ok.2 ⟨args, hdone, rfl⟩

/-- Where an argument cannot be resolved, after those before it, the arguments cannot. -/
theorem arguments_of_error {done more : List (Option Span)} {slot : Span} {args : List Arg}
    {s₁ : Session} {e : EvalError} (hdone : arguments nested d done s = (.ok args, s₁))
    (hmark : (d.slice slot).hasMarker = true)
    (hslot : nested (d.slice slot) s₁ = (.error e, s')) :
    arguments nested d (done ++ some slot :: more) s = (.error e, s') := by
  induction done generalizing s args with
  -- nothing is before the slot; it has a marker, so it is resolved and fails
  | nil =>
    cases hdone
    rw [List.nil_append, arguments, List.mapM_cons]
    refine Eval.bind_of_error ?_
    rw [argument, if_pos hmark]
    exact Eval.bind_of_error hslot
  | cons slot' done ih =>
    rw [arguments, List.mapM_cons, Eval.bind_eq_ok] at hdone
    obtain ⟨a, s₂, hfirst, hrest⟩ := hdone
    obtain ⟨args', hrest, -⟩ := Eval.map_eq_ok.1 hrest
    rw [List.cons_append, arguments, List.mapM_cons, Eval.bind_of_ok hfirst]
    exact Eval.bind_of_error (ih hrest)

/-- Where arguments are resolved, so is each of them, after those before it. -/
theorem exists_part_of_arguments {done more : List (Option Span)} {slot : Span} {args all : List Arg}
    {s₁ : Session} (hdone : arguments nested d done s = (.ok args, s₁))
    (hmark : (d.slice slot).hasMarker = true)
    (hall : arguments nested d (done ++ some slot :: more) s = (.ok all, s')) :
    ∃ part s₂ rest, nested (d.slice slot) s₁ = (.ok part, s₂) ∧
      arguments nested d more s₂ = (.ok rest, s') := by
  induction done generalizing s args all with
  -- the slot is the first one that is left: the level below gives its part, and the others
  -- follow
  | nil =>
    cases hdone
    rw [List.nil_append, arguments, List.mapM_cons, Eval.bind_eq_ok] at hall
    obtain ⟨a, s₂, hslot, hmore⟩ := hall
    obtain ⟨rest, hrest, -⟩ := Eval.map_eq_ok.1 hmore
    rw [argument, if_pos hmark] at hslot
    obtain ⟨part, hpart, -⟩ := Eval.map_eq_ok.1 hslot
    exact ⟨part, s₂, rest, hpart, hrest⟩
  | cons slot' done ih =>
    rw [arguments, List.mapM_cons, Eval.bind_eq_ok] at hdone
    obtain ⟨a, s₂, hfirst, hrest⟩ := hdone
    obtain ⟨args', hrest, -⟩ := Eval.map_eq_ok.1 hrest
    rw [List.cons_append, arguments, List.mapM_cons, Eval.bind_of_ok hfirst] at hall
    obtain ⟨all', hall, -⟩ := Eval.map_eq_ok.1 hall
    exact ih hrest hall

/-- An argument with a marker is resolved and rendered, any other one is unescaped as it
stands. -/
theorem argument_some_eq_ok {slot : Span} {a : Arg} :
    argument nested d (some slot) s = (.ok a, s') ↔
      ((d.slice slot).hasMarker = true ∧
        ∃ part, nested (d.slice slot) s = (.ok part, s') ∧ a = some part.rendered) ∨
      ((d.slice slot).hasMarker = false ∧ a = some (Text.unescape (d.slice slot).text) ∧ s' = s) := by
  simp only [argument]
  cases hmark : (d.slice slot).hasMarker with
  | true =>
    rw [if_pos rfl, Eval.map_eq_ok]
    simp [eq_comm]
  | false =>
    rw [if_neg Bool.false_ne_true]
    constructor
    · intro h
      cases h
      exact .inr ⟨rfl, rfl, rfl⟩
    · rintro (⟨h, -⟩ | ⟨-, rfl, rfl⟩)
      · cases h
      · rfl

/-- The last argument is resolved after the others. -/
theorem arguments_concat_eq_ok {slots : List (Option Span)} {slot : Option Span} {args : List Arg} :
    arguments nested d (slots ++ [slot]) s = (.ok args, s') ↔
      ∃ before a s₁, arguments nested d slots s = (.ok before, s₁) ∧
        argument nested d slot s₁ = (.ok a, s') ∧ args = before ++ [a] := by
  -- the last argument is a row of one
  have hlast : ∀ s, ([slot].mapM (argument nested d)) s =
      (argument nested d slot >>= fun a => pure [a]) s := by
    intro s
    simp only [List.mapM_cons, List.mapM_nil, pure_bind]
  rw [arguments, List.mapM_append, Eval.bind_eq_ok]
  refine exists_congr fun before => ?_
  constructor
  · rintro ⟨s₁, hbefore, hrest⟩
    obtain ⟨last, hone, rfl⟩ := Eval.map_eq_ok.1 hrest
    rw [hlast] at hone
    obtain ⟨a, ha, rfl⟩ := Eval.map_eq_ok.1 hone
    exact ⟨a, s₁, hbefore, ha, rfl⟩
  · rintro ⟨a, s₁, hbefore, ha, rfl⟩
    refine ⟨s₁, hbefore, Eval.map_eq_ok.2 ⟨[a], ?_, rfl⟩⟩
    rw [hlast]
    exact Eval.map_eq_ok.2 ⟨a, ha, rfl⟩

/-- A call that completes is logged, whatever comes of it. -/
theorem callFunction_log (f : Function) (args : List Arg) (s : Session) :
    ∃ record, (ev.callFunction f args s).2.log = record :: s.log := by
  unfold callFunction Session.complete
  refine ⟨⟨f.name.text, args, (f.call (ev.contextIn f s) args s.state).1⟩, ?_⟩
  simp only
  split <;> rfl

/-- Calling a function is no work beyond what was counted for it. -/
theorem callFunction_work (f : Function) (args : List Arg) (s : Session) :
    (ev.callFunction f args s).2.work = s.work := by
  unfold callFunction Session.complete
  simp only
  split <;> rfl

/-- A call that fails does so with a message of its function. -/
theorem callFunction_eq_error {f : Function} {args : List Arg} {e : EvalError}
    (h : ev.callFunction f args s = (.error e, s')) :
    ∃ message, e = .failure f.name.text message := by
  unfold callFunction Session.complete at h
  simp only at h
  split at h
  · cases h
  · cases h
  · next message _ =>
    cases h
    exact ⟨message, rfl⟩

/-- What is to be done for a name that need not wait for a branch. -/
inductive Order where
  /-- The name is left as text. -/
  | leave
  /-- The argument list of the function is missing. -/
  | refuse (f : Function)
  | call (f : Function) (span : Span) (slots : List (Option Span))

/-- What is to be done for a name in a document. -/
def orderFor (ev : Evaluator) (d : Document) (name : Text) : Order :=
  match CallSite.find d name with
  | .absent | .escaped _ | .unterminated _ => .leave
  | .bare span =>
    match ev.registry.get? name with
    | none => .leave
    | some f => if f.brackets then .refuse f else .call f span []
  | .call span slots =>
    match ev.registry.get? name with
    | none => .leave
    | some f => .call f span slots

/-- To invoke a name is to follow the order that it gives. -/
theorem invoke_eq (name : Text) :
    ev.invoke nested d name =
      match ev.orderFor d name with
      | .leave => pure d
      | .refuse f => throw (.usage f.name.text f.params)
      | .call f span slots => ev.perform nested d f span slots := by
  -- the two differ in the order of their questions only
  unfold invoke orderFor
  cases CallSite.find d name with
  | absent | escaped | unterminated => rfl
  | bare span =>
    cases ev.registry.get? name with
    | none => rfl
    | some f => cases hf : f.brackets <;> simp [hf]
  | call span slots => cases ev.registry.get? name <;> rfl

/-- What is called is looked up, and stands in the document with its list or without one. -/
theorem get?_of_orderFor {name : Text} {f : Function} {span : Span} {slots : List (Option Span)}
    (h : ev.orderFor d name = .call f span slots) :
    ev.registry.get? name = some f ∧
      (CallSite.find d name = .bare span ∧ slots = [] ∨ CallSite.find d name = .call span slots) := by
  unfold orderFor at h
  -- there is a name without brackets
  split at h
  · cases h
  · cases h
  · cases h
  · next span' hsite =>
    split at h
    · cases h
    · next f' hf =>
      split at h
      · cases h
      · cases h
        exact ⟨hf, .inl ⟨hsite, rfl⟩⟩
  -- there is a name with an argument list
  · next span' slots' hsite =>
    split at h
    · cases h
    · next f' hf =>
      cases h
      exact ⟨hf, .inr hsite⟩

/-- A call covers what its site does, and its function is the one that is registered. -/
theorem orderFor_eq_call {name : Text} {f : Function} {span : Span} {slots : List (Option Span)}
    (hname : name.head? = some '$') (h : ev.orderFor d name = .call f span slots) :
    CallSite.Covers d name span slots ∧ ev.registry.get? name = some f := by
  have hne : name ≠ [] := by
    rintro rfl
    cases hname
  obtain ⟨hf, ⟨hsite, rfl⟩ | hsite⟩ := get?_of_orderFor h
  · exact ⟨CallSite.covers_of_bare hne hsite, hf⟩
  · exact ⟨CallSite.covers_of_call hsite, hf⟩

/-- The function that is called is one of the registry. -/
theorem mem_functions_of_orderFor {name : Text} {f : Function} {span : Span}
    {slots : List (Option Span)} (h : ev.orderFor d name = .call f span slots) :
    f ∈ ev.registry.functions :=
  List.mem_of_find?_eq_some (get?_of_orderFor h).1

/-- A call succeeds within the limit where its arguments do and its function does. -/
theorem callResult_eq_ok {f : Function} {slots : List (Option Span)} {result : Text} :
    ev.callResult nested d f slots s = (.ok result, s') ↔
      s.work + 1 ≤ ev.limits.invocations ∧ ∃ args s₁,
        arguments nested d slots s.counted = (.ok args, s₁) ∧
          ev.callFunction f args s₁ = (.ok result, s') := by
  rw [callResult, Eval.bind_eq_ok]
  constructor
  · rintro ⟨⟨⟩, s₁, hcount, h⟩
    obtain ⟨hle, rfl⟩ := countWork_eq_ok.1 hcount
    exact ⟨hle, Eval.bind_eq_ok.1 h⟩
  · rintro ⟨hle, h⟩
    exact ⟨(), s.counted, countWork_eq_ok.2 ⟨hle, rfl⟩, Eval.bind_eq_ok.2 h⟩

/-- The record of a call holds the name of its function and the arguments. -/
theorem callFunction_record {f : Function} {args : List Arg} {result : Text}
    (h : ev.callFunction f args s = (.ok result, s')) :
    ∃ outcome, s'.log = ⟨f.name.text, args, outcome⟩ :: s.log := by
  refine ⟨(f.call (ev.contextIn f s) args s.state).1, ?_⟩
  unfold callFunction Session.complete at h
  simp only at h
  split at h
  · cases h
    rfl
  · cases h
    rfl
  · cases h

/-! ### Blocks -/

/-- What is chosen of a block: the work is counted, and the conditions are asked in order. -/
def chosenBody (ev : Evaluator) (nested : Nested) (d : Document) (b : Block) :
    Eval (List Span) := do
  ev.countWork
  chooseBody nested d b

/-- The document with a block replaced by what is chosen of it. -/
def restarted (d : Document) (b : Block) (chosen : List Span) : Document :=
  d.splice b.span (d.gather chosen)

/-- The cells of the chosen body stand where the block was. -/
theorem cells_restarted (d : Document) (b : Block) (chosen : List Span) :
    (restarted d b chosen).cells = b.span.graft (Span.gather chosen d.cells) d.cells := by
  rw [restarted, Document.cells_splice_eq_graft, Document.cells_gather_eq]

/-- What becomes of the document depends on a session only through the body that is chosen. -/
theorem resolveBlock_eq :
    ev.resolveBlock nested d =
      match Block.findInnermost d.text ev.strict with
      | .error cause => throw (.structural cause)
      | .ok b => ev.chosenBody nested d b >>= fun chosen => pure (restarted d b chosen) := by
  unfold resolveBlock
  cases Block.findInnermost d.text ev.strict with
  | error cause => rfl
  | ok b => simp only [chosenBody, restarted, bind_assoc]

/-- Conditions that are asked one after the other, and none of them is true. -/
inductive Refuted (nested : Nested) (d : Document) : List Span → Session → Session → Prop
  | nil {s : Session} : Refuted nested d [] s s
  | cons {c : Span} {later : List Span} {s s₁ s' : Session}
      (first : conditionHolds nested d c s = (.ok false, s₁))
      (rest : Refuted nested d later s₁ s') : Refuted nested d (c :: later) s s'

/-- The last condition is asked after the others. -/
theorem refuted_concat {asked : List Span} {c : Span} :
    Refuted nested d (asked ++ [c]) s s' ↔
      ∃ s₁, Refuted nested d asked s s₁ ∧ conditionHolds nested d c s₁ = (.ok false, s') := by
  -- the condition that is added is the last one in either direction
  induction asked generalizing s with
  | nil =>
    constructor
    · intro h
      cases h with
      | cons first rest =>
        cases rest
        exact ⟨s, .nil, first⟩
    · rintro ⟨s₁, hasked, hlast⟩
      cases hasked
      exact .cons hlast .nil
  | cons first asked ih =>
    constructor
    · intro h
      cases h with
      | cons hfirst hrest =>
        obtain ⟨s₂, hasked, hlast⟩ := ih.1 hrest
        exact ⟨s₂, .cons hfirst hasked, hlast⟩
    · rintro ⟨s₁, hasked, hlast⟩
      cases hasked with
      | cons hfirst hrest => exact .cons hfirst (ih.2 ⟨s₁, hrest, hlast⟩)

/-- What is chosen is what stands behind `$else`, or the body of an alternative. -/
theorem chooseAlternative_eq_ok {otherwise chosen : List Span} {alternatives : List Alternative}
    (h : chooseAlternative nested d otherwise alternatives s = (.ok chosen, s')) :
    chosen = otherwise ∨ ∃ a ∈ alternatives, chosen = [a.body] := by
  induction alternatives generalizing s with
  | nil =>
    cases h
    exact .inl rfl
  | cons a later ih =>
    rw [chooseAlternative, Eval.bind_eq_ok] at h
    obtain ⟨holds, s₁, -, h⟩ := h
    cases holds with
    | true =>
      cases h
      exact .inr ⟨a, List.mem_cons_self, rfl⟩
    | false =>
      rcases ih h with rfl | ⟨a', ha', rfl⟩
      · exact .inl rfl
      · exact .inr ⟨a', List.mem_cons_of_mem a ha', rfl⟩

/-- What is chosen follows the conditions that were asked: none of them was true, or the last one
was. -/
inductive Asked (nested : Nested) (d : Document) (conditions : List Span) (s s' : Session) : Prop
  | all (refuted : Refuted nested d conditions s s')
  | some {asked later : List Span} {c : Span} {s₁ : Session}
      (conditions_eq : conditions = asked ++ c :: later) (refuted : Refuted nested d asked s s₁)
      (holds : conditionHolds nested d c s₁ = (.ok true, s'))

theorem Asked.cons {c : Span} {conditions : List Span} {s₁ : Session}
    (hfirst : conditionHolds nested d c s = (.ok false, s₁))
    (h : Asked nested d conditions s₁ s') : Asked nested d (c :: conditions) s s' := by
  cases h with
  | all refuted => exact .all (.cons hfirst refuted)
  | some conditions_eq refuted holds =>
    exact .some (by rw [conditions_eq]; rfl) (.cons hfirst refuted) holds

/-- A choice among alternatives has asked their conditions up to the first that holds. -/
theorem asked_of_chooseAlternative {otherwise chosen : List Span} {alternatives : List Alternative}
    (h : chooseAlternative nested d otherwise alternatives s = (.ok chosen, s')) :
    Asked nested d (alternatives.map (·.condition)) s s' := by
  induction alternatives generalizing s with
  | nil =>
    cases h
    exact .all .nil
  | cons a later ih =>
    rw [chooseAlternative, Eval.bind_eq_ok] at h
    obtain ⟨holds, s₁, hfirst, h⟩ := h
    cases holds with
    | true =>
      cases h
      exact .some rfl .nil hfirst
    | false => exact .cons hfirst (ih h)

/-- The same for a block, whose own condition comes first. -/
theorem asked_of_chooseBody {b : Block} {chosen : List Span}
    (h : chooseBody nested d b s = (.ok chosen, s')) : Asked nested d b.conditions s s' := by
  rw [chooseBody, Eval.bind_eq_ok] at h
  obtain ⟨holds, s₁, hfirst, h⟩ := h
  cases holds with
  | true =>
    cases h
    exact .some rfl .nil hfirst
  | false => exact .cons hfirst (asked_of_chooseAlternative h)

/-- A block chooses among its own texts. -/
theorem mem_choices_of_chooseBody {b : Block} {chosen : List Span}
    (h : chooseBody nested d b s = (.ok chosen, s')) : chosen ∈ b.choices := by
  rw [chooseBody, Eval.bind_eq_ok] at h
  obtain ⟨holds, s₁, -, h⟩ := h
  cases holds with
  | true =>
    cases h
    exact List.mem_cons_self
  | false =>
    rcases chooseAlternative_eq_ok h with rfl | ⟨a, ha, rfl⟩
    · exact List.mem_cons_of_mem _ List.mem_cons_self
    · exact List.mem_cons_of_mem _ (List.mem_cons_of_mem _ (List.mem_map.2 ⟨a, ha, rfl⟩))

/-- A body is chosen within the limit, after the work has been counted. -/
theorem chosenBody_eq_ok {b : Block} {chosen : List Span} :
    ev.chosenBody nested d b s = (.ok chosen, s') ↔
      s.work + 1 ≤ ev.limits.invocations ∧ chooseBody nested d b s.counted = (.ok chosen, s') := by
  rw [chosenBody, Eval.bind_eq_ok]
  constructor
  · rintro ⟨⟨⟩, s₁, hcount, h⟩
    obtain ⟨hle, rfl⟩ := countWork_eq_ok.1 hcount
    exact ⟨hle, h⟩
  · rintro ⟨hle, h⟩
    exact ⟨(), s.counted, countWork_eq_ok.2 ⟨hle, rfl⟩, h⟩

theorem mem_choices_of_chosenBody {b : Block} {chosen : List Span}
    (h : ev.chosenBody nested d b s = (.ok chosen, s')) : chosen ∈ b.choices :=
  mem_choices_of_chooseBody (chosenBody_eq_ok.1 h).2

/-- A condition fails where the level below does. -/
theorem conditionHolds_eq_error {c : Span} {e : EvalError} :
    conditionHolds nested d c s = (.error e, s') ↔ nested (d.slice c) s = (.error e, s') :=
  Eval.map_eq_error

/-- A choice that fails does so in a condition all of whose predecessors were false. -/
theorem chooseAlternative_eq_error {otherwise : List Span} {alternatives : List Alternative}
    {e : EvalError} (h : chooseAlternative nested d otherwise alternatives s = (.error e, s')) :
    ∃ asked c later s₁, alternatives.map (·.condition) = asked ++ c :: later ∧
      Refuted nested d asked s s₁ ∧ nested (d.slice c) s₁ = (.error e, s') := by
  induction alternatives generalizing s with
  | nil => cases h
  | cons a later ih =>
    rw [chooseAlternative, Eval.bind_eq_error] at h
    rcases h with h | ⟨holds, s₁, hfirst, h⟩
    · exact ⟨[], a.condition, _, s, rfl, .nil, conditionHolds_eq_error.1 h⟩
    · cases holds with
      | true => cases h
      | false =>
        obtain ⟨asked, c, rest, s₂, heq, hasked, herror⟩ := ih h
        exact ⟨a.condition :: asked, c, rest, s₂, by rw [List.map_cons, heq]; rfl,
          .cons hfirst hasked, herror⟩

/-- Choosing fails where a condition does, after the conditions before it were found not true. -/
theorem chooseBody_eq_error {b : Block} {e : EvalError}
    (h : chooseBody nested d b s = (.error e, s')) :
    ∃ asked c later s₁, b.conditions = asked ++ c :: later ∧
      Refuted nested d asked s s₁ ∧ nested (d.slice c) s₁ = (.error e, s') := by
  rw [chooseBody, Eval.bind_eq_error] at h
  rcases h with h | ⟨holds, s₁, hfirst, h⟩
  · exact ⟨[], b.condition, _, s, rfl, .nil, conditionHolds_eq_error.1 h⟩
  · cases holds with
    | true => cases h
    | false =>
      obtain ⟨asked, c, rest, s₂, heq, hasked, herror⟩ := chooseAlternative_eq_error h
      exact ⟨b.condition :: asked, c, rest, s₂, by rw [Block.conditions, heq]; rfl,
        .cons hfirst hasked, herror⟩

/-- Alternatives whose conditions were found not true are passed over. -/
theorem chooseAlternative_of_refuted (otherwise : List Span) {asked later : List Span}
    {alternatives : List Alternative} {s₁ : Session}
    (hconds : alternatives.map (·.condition) = asked ++ later)
    (hasked : Refuted nested d asked s s₁) :
    ∃ rest, rest.map (·.condition) = later ∧
      chooseAlternative nested d otherwise alternatives s =
        chooseAlternative nested d otherwise rest s₁ := by
  induction hasked generalizing alternatives with
  | nil => exact ⟨alternatives, hconds, rfl⟩
  -- a condition that was false is passed over
  | cons first _ ih =>
    obtain ⟨a, more, rfl, rfl, hmore⟩ := List.map_eq_cons_iff.1 hconds
    obtain ⟨rest, hrest, heq⟩ := ih hmore
    refine ⟨rest, hrest, ?_⟩
    rw [chooseAlternative, Eval.bind_of_ok first, ← heq]
    rfl

/-- Where a condition fails behind conditions that were false, the choice fails. -/
theorem chooseAlternative_of_error {otherwise asked later : List Span} {c : Span}
    {alternatives : List Alternative} {s₁ : Session} {e : EvalError}
    (hconds : alternatives.map (·.condition) = asked ++ c :: later)
    (hasked : Refuted nested d asked s s₁) (hc : nested (d.slice c) s₁ = (.error e, s')) :
    chooseAlternative nested d otherwise alternatives s = (.error e, s') := by
  obtain ⟨rest, hrest, heq⟩ := chooseAlternative_of_refuted otherwise hconds hasked
  obtain ⟨a, more, rfl, rfl, -⟩ := List.map_eq_cons_iff.1 hrest
  rw [heq, chooseAlternative]
  exact Eval.bind_of_error (conditionHolds_eq_error.2 hc)

/-- Where a condition cannot be resolved, after those before it were found not true, nothing is
chosen. -/
theorem chooseBody_of_error {b : Block} {asked later : List Span} {c : Span} {s₁ : Session}
    {e : EvalError} (hconds : b.conditions = asked ++ c :: later)
    (hasked : Refuted nested d asked s s₁) (hc : nested (d.slice c) s₁ = (.error e, s')) :
    chooseBody nested d b s = (.error e, s') := by
  rw [chooseBody]
  cases hasked with
  -- it is the condition of the block itself
  | nil =>
    obtain ⟨rfl, -⟩ := List.cons.inj hconds
    exact Eval.bind_of_error (conditionHolds_eq_error.2 hc)
  -- it is a condition of an alternative
  | cons first rest =>
    obtain ⟨rfl, hmore⟩ := List.cons.inj hconds
    rw [Eval.bind_of_ok first]
    exact chooseAlternative_of_error hmore rest hc

end Evaluator

end Stencil
