import Stencil.Proofs.Growth
/-!
# Stopping short

Two evaluators with the same functions may differ in what they refuse: in their limits, and in the
blocks that they take for well formed. Where one of them refuses more (`Tighter`), it does what the
other one does as far as it comes: either both runs are the same, or the tighter one has stopped
with an error of its own, and the calls that it completed are the first ones that the other one
completed (`Short`). Every step hands this on to the next one (`Tighter.bind`), and so does the
recursion on the levels (`Tighter.resolve`).
-/

namespace Stencil.Evaluator

/-- The first evaluator refuses what the second one refuses, and what it refuses besides gives one
of the errors. -/
structure Tighter (E : EvalError → Prop) (low high : Evaluator) : Prop where
  registry : low.registry = high.registry
  invocation : low.invocation = high.invocation
  depth_le : low.limits.depth ≤ high.limits.depth
  depth : low.limits.depth < high.limits.depth → E (.tooDeep low.limits.depth)
  invocations_le : low.limits.invocations ≤ high.limits.invocations
  invocations : low.limits.invocations < high.limits.invocations →
    E (.tooManyInvocations low.limits.invocations)
  blocks : ∀ t, Block.findInnermost t low.strict = Block.findInnermost t high.strict ∨
    ∃ cause, Block.findInnermost t low.strict = .error cause ∧ E (.structural cause)

/-- From every session the first step does what the second one does, or it stops with one of the
errors, after calls that the second one completes too. -/
structure Short (E : EvalError → Prop) {α : Type} (x y : Eval α) : Prop where
  grows : Follows (fun s s' => s.log <:+ s'.log) y
  agrees : ∀ s, x s = y s ∨ ∃ e s', x s = (.error e, s') ∧ E e ∧ s'.log <:+ (y s).2.log

namespace Tighter

variable {E : EvalError → Prop} {low high : Evaluator} {α β : Type} {x y : Eval α}
  {f g : α → Eval β} {inner outer : Nested} {d : Document}

/-- A value is the same for both. -/
theorem pure (_ : Tighter E low high) (a : α) : Short E (Pure.pure a : Eval α) (Pure.pure a) :=
  ⟨(keptLog high).pure a, fun _ => .inl rfl⟩

/-- So is an error, whatever limits there are. -/
theorem throw (_ : Tighter E low high) (e : EvalError) : Short E (throw e : Eval α) (throw e) :=
  ⟨(keptLog high).throw e, fun _ => .inl rfl⟩

/-- Where the first step stops short, the second one goes on, and what comes behind it only adds to
the calls. -/
theorem bind (_ : Tighter E low high) (hx : Short E x y) (hf : ∀ a, Short E (f a) (g a)) :
    Short E (x >>= f) (y >>= g) where
  grows := (keptLog high).bind hx.grows fun a => (hf a).grows
  agrees s := by
    rcases hx.agrees s with heq | ⟨e, s', hstop, he, hlog⟩
    · rcases hy : y s with ⟨e | a, s₁⟩
      · exact .inl (by rw [Eval.bind_of_error (heq.trans hy), Eval.bind_of_error hy])
      · rw [Eval.bind_of_ok (heq.trans hy), Eval.bind_of_ok hy]
        exact (hf a).agrees s₁
    -- the first part stops early, and what the other one does behind it only adds to its log
    · refine .inr ⟨e, s', Eval.bind_of_error hstop, he, hlog.trans ?_⟩
      rcases hy : y s with ⟨e' | a, s₁⟩
      · exact (Eval.bind_of_error (f := g) hy).symm ▸ List.suffix_rfl
      · rw [Eval.bind_of_ok hy]
        exact (hf a).grows s₁

/-- Work is counted against different limits: either both evaluators go on, or the tighter one
stops here. -/
theorem countWork (h : Tighter E low high) : Short E low.countWork high.countWork where
  grows := (keptLog high).countWork
  agrees s := by
    rw [countWork_apply]
    split
    · next hover =>
      -- over the tighter limit: it is the same limit, or one of the errors that are meant
      rcases h.invocations_le.eq_or_lt with heq | hlt
      · exact .inl (by rw [countWork_apply, ← heq, if_pos hover])
      · exact .inr ⟨_, _, rfl, h.invocations hlt, (keptLog high).countWork s⟩
    · next hwithin =>
      have hle := h.invocations_le
      exact .inl (by rw [countWork_apply, if_neg (by omega)])

/-! ### Calls -/

/-- Arguments are resolved on the level below, which stops short by hypothesis. -/
theorem argument (h : Tighter E low high) (hn : ∀ d, Short E (inner d) (outer d))
    (slot : Option Span) : Short E (argument inner d slot) (argument outer d slot) := by
  cases slot with
  | none => exact h.pure _
  | some span =>
    simp only [Evaluator.argument]
    split
    · exact h.bind (hn _) fun _ => h.pure _
    · exact h.pure _

theorem arguments (h : Tighter E low high) (hn : ∀ d, Short E (inner d) (outer d))
    (slots : List (Option Span)) : Short E (arguments inner d slots) (arguments outer d slots) := by
  induction slots with
  | nil => exact h.pure _
  | cons slot slots ih =>
    rw [Evaluator.arguments, Evaluator.arguments, List.mapM_cons, List.mapM_cons]
    exact h.bind (h.argument hn slot) fun _ => h.bind ih fun _ => h.pure _

/-- Functions are called in the same context, so a call is the same for both. -/
theorem callFunction (h : Tighter E low high) (f : Function) (args : List Arg) :
    Short E (low.callFunction f args) (high.callFunction f args) where
  grows := callFunction_log_suffix f args
  agrees s := by
    refine .inl ?_
    unfold Evaluator.callFunction contextIn
    rw [h.invocation]

theorem callResult (h : Tighter E low high) (hn : ∀ d, Short E (inner d) (outer d)) (f : Function)
    (slots : List (Option Span)) :
    Short E (low.callResult inner d f slots) (high.callResult outer d f slots) :=
  h.bind h.countWork fun _ => h.bind (h.arguments hn slots) fun args => h.callFunction f args

/-- Which call a name orders does not depend on limits. -/
theorem orderFor (h : Tighter E low high) (name : Text) :
    low.orderFor d name = high.orderFor d name := by
  unfold Evaluator.orderFor
  rw [h.registry]

/-- The same call is performed, or the same refusal is made. -/
theorem invoke (h : Tighter E low high) (hn : ∀ d, Short E (inner d) (outer d)) (name : Text) :
    Short E (low.invoke inner d name) (high.invoke outer d name) := by
  rw [invoke_eq, invoke_eq, h.orderFor]
  cases high.orderFor d name with
  | leave => exact h.pure _
  | refuse f => exact h.throw _
  | call f span slots =>
    simp only [perform_eq]
    exact h.bind (h.callResult hn f slots) fun _ => h.pure _

/-! ### Blocks -/

/-- A condition is resolved on the level below. -/
theorem conditionHolds (h : Tighter E low high) (hn : ∀ d, Short E (inner d) (outer d)) (c : Span) :
    Short E (conditionHolds inner d c) (conditionHolds outer d c) :=
  h.bind (hn _) fun _ => h.pure _

/-- The alternatives are asked one behind the other, and the same one is chosen. -/
theorem chooseAlternative (h : Tighter E low high) (hn : ∀ d, Short E (inner d) (outer d))
    (otherwise : List Span) (alternatives : List Alternative) :
    Short E (chooseAlternative inner d otherwise alternatives)
      (chooseAlternative outer d otherwise alternatives) := by
  induction alternatives with
  | nil => exact h.pure _
  | cons a later ih =>
    refine h.bind (h.conditionHolds hn _) fun holds => ?_
    cases holds with
    | true => exact h.pure _
    | false => exact ih

theorem chosenBody (h : Tighter E low high) (hn : ∀ d, Short E (inner d) (outer d)) (b : Block) :
    Short E (low.chosenBody inner d b) (high.chosenBody outer d b) := by
  refine h.bind h.countWork fun _ => h.bind (h.conditionHolds hn _) fun holds => ?_
  cases holds with
  | true => exact h.pure _
  | false => exact h.chooseAlternative hn _ _

/-- Either both find the same block, or the tighter one refuses the text at once. -/
theorem resolveBlock (h : Tighter E low high) (hn : ∀ d, Short E (inner d) (outer d)) :
    Short E (low.resolveBlock inner d) (high.resolveBlock outer d) := by
  have hgrows : ∀ d, Follows (fun s s' => s.log <:+ s'.log) (outer d) := fun d => (hn d).grows
  rcases h.blocks d.text with heq | ⟨cause, herror, he⟩
  · rw [resolveBlock_eq, resolveBlock_eq, heq]
    cases Block.findInnermost d.text high.strict with
    | error cause => exact h.throw _
    | ok b => exact h.bind (h.chosenBody hn b) fun _ => h.pure _
  · refine ⟨(keptLog high).resolveBlock hgrows, fun s => .inr ⟨_, s, ?_, he, ?_⟩⟩
    · rw [resolveBlock_eq, herror]
      rfl
    · exact (keptLog high).resolveBlock hgrows s

/-! ### Passes and levels -/

/-- A pass stops short, by induction on its worklist. -/
theorem runPass (h : Tighter E low high) (hn : ∀ d, Short E (inner d) (outer d))
    (worklist : List Text) (d : Document) :
    Short E (low.runPass inner worklist d) (high.runPass outer worklist d) := by
  induction worklist generalizing d with
  | nil => exact h.pure _
  | cons name rest ih =>
    rw [Evaluator.runPass, Evaluator.runPass]
    split
    · exact h.bind (h.resolveBlock hn) fun _ => h.pure _
    · exact h.bind (h.invoke hn name) fun d' => ih d'

/-- Both evaluators make the same passes, because they scan for the same names. -/
theorem passes (h : Tighter E low high) (hn : ∀ d, Short E (inner d) (outer d)) (n : Nat)
    (d : Document) : Short E (low.passes inner n d) (high.passes outer n d) := by
  induction n generalizing d with
  | zero => exact h.pure _
  | succ n ih =>
    have hnames : low.names = high.names := by rw [names, names, h.registry]
    rw [Evaluator.passes, Evaluator.passes, hnames]
    refine h.bind (h.runPass hn _ d) fun pass => ?_
    cases pass with
    | settled d' => exact h.pure _
    | restarted d' => exact ih d'

/-- With fewer levels left the tighter evaluator is the first to be too deep. -/
theorem resolve (h : Tighter E low high) (levels : Nat) (d : Document) :
    Short E (low.resolve levels d)
      (high.resolve (levels + (high.limits.depth - low.limits.depth)) d) := by
  induction levels generalizing d with
  | zero =>
    -- no level is left below: with equal limits both refuse, otherwise the tighter one alone
    -- does
    refine ⟨(keptLog high).resolve _ d, fun s => ?_⟩
    rcases h.depth_le.eq_or_lt with heq | hlt
    · rw [heq, Nat.sub_self, Evaluator.resolve, Evaluator.resolve, heq]
      exact .inl rfl
    · exact .inr ⟨_, s, rfl, h.depth hlt, (keptLog high).resolve _ d s⟩
  | succ levels ih =>
    rw [Nat.succ_add, Evaluator.resolve, Evaluator.resolve]
    exact h.passes ih _ d

/-- An evaluator that refuses more reports the same, or it stopped with an error of its own, and the
calls that completed by then are the first ones of the other report. -/
theorem evaluate (h : Tighter E low high) (source : Text) (state : ExecutionState) :
    low.evaluate source state = high.evaluate source state ∨
      ∃ e, (low.evaluate source state).result = .error e ∧ E e ∧
        (low.evaluate source state).calls <+: (high.evaluate source state).calls := by
  have hle := h.depth_le
  have hshort := h.resolve (low.limits.depth + 1) (.source source)
  -- the levels that the tighter evaluator has, and those that the other one has beyond them
  rw [show low.limits.depth + 1 + (high.limits.depth - low.limits.depth) = high.limits.depth + 1 by
    omega] at hshort
  unfold Evaluator.evaluate
  rcases hshort.agrees (.start state) with heq | ⟨e, s', hstop, he, hlog⟩
  · rw [heq]
    exact .inl rfl
  -- it stopped; the calls are the log in the order of time
  · rw [hstop]
    refine .inr ⟨e, rfl, he, ?_⟩
    rcases hhigh : high.resolve (high.limits.depth + 1) (.source source) (.start state) with
      ⟨e' | d', s⟩ <;> rw [hhigh] at hlog <;> exact List.reverse_prefix.2 hlog

end Tighter

/-- The error of a run that exceeded its limits. -/
def ExceedsLimits (l : Limits) (e : EvalError) : Prop :=
  e = .tooDeep l.depth ∨ e = .tooManyInvocations l.invocations

/-- Lower limits refuse more and change nothing else. -/
theorem tighter_limits (ev : Evaluator) {l l' : Limits} (hdepth : l.depth ≤ l'.depth)
    (hinvocations : l.invocations ≤ l'.invocations) :
    Tighter (ExceedsLimits l) { ev with limits := l } { ev with limits := l' } where
  registry := rfl
  invocation := rfl
  depth_le := hdepth
  depth _ := .inl rfl
  invocations_le := hinvocations
  invocations _ := .inr rfl
  blocks _ := .inl rfl

/-- Limits only cut a run short: under lower limits an evaluation reports the same text, artifacts,
state and calls, or the same error, or else it exceeds a limit, and the calls that completed by then
are the first ones of the evaluation under the higher limits. -/
theorem lower_limits_cut_short (ev : Evaluator) (source : Text) (state : ExecutionState)
    {l l' : Limits} (hdepth : l.depth ≤ l'.depth) (hinvocations : l.invocations ≤ l'.invocations) :
    { ev with limits := l }.evaluate source state =
        { ev with limits := l' }.evaluate source state ∨
      ∃ e, ({ ev with limits := l }.evaluate source state).result = .error e ∧ ExceedsLimits l e ∧
        ({ ev with limits := l }.evaluate source state).calls <+:
          ({ ev with limits := l' }.evaluate source state).calls :=
  (tighter_limits ev hdepth hinvocations).evaluate source state

/-- A second call is cut off. -/
theorem second_call_is_cut_off :
    let ev := withFunctions [.constant ['f'] ['x']]
    let low := { ev with limits := ⟨64, 1⟩ }.evaluate "$f[] $f[]".toList .initial
    let high := { ev with limits := ⟨64, 2⟩ }.evaluate "$f[] $f[]".toList .initial
    low.result = .error (.tooManyInvocations 1) ∧ low.calls.length = 1 ∧ high.calls.length = 2 ∧
      (low = high ∨ ∃ e, low.result = .error e ∧ ExceedsLimits ⟨64, 1⟩ e ∧
        low.calls <+: high.calls) :=
  ⟨rfl, rfl, rfl, lower_limits_cut_short (withFunctions [.constant ['f'] ['x']]) "$f[] $f[]".toList
    .initial (by decide : (64 : Nat) ≤ 64) (by decide : (1 : Nat) ≤ 2)⟩

end Stencil.Evaluator
