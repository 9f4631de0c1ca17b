import Stencil.Proofs.Order
/-!
# Successful runs

In a run that succeeds every function that is called returns, and every part that is entered is
resolved. What holds between the sessions before and behind such a call therefore holds between
those at the beginning and at the end of the run (`Along.relates`). That the log is nothing but
calls of the run that completed one after the other is one such thing (`Reached.ran`).

A run that fails comes to a point at which it is stopped, and all that is called before that returns.
What holds of a call that fails too therefore holds of every run (`Along.outcome`).
-/

namespace Stencil.Evaluator

variable {ev : Evaluator} {source : Text} {state : ExecutionState} {R : Session → Session → Prop}
  {p : Point} {d : Document} {s : Session}

/-- A relation between a session and a later one that holds where work is counted and where a call
of the run returns. -/
structure Along (ev : Evaluator) (source : Text) (state : ExecutionState)
    (R : Session → Session → Prop) : Prop where
  refl : ∀ s, R s s
  trans : ∀ {s₁ s₂ s₃}, R s₁ s₂ → R s₂ s₃ → R s₁ s₃
  counted : ∀ s, R s s.counted
  called : ∀ {p f span slots args result s s'}, ev.Reached source state p →
    ev.Calls p f span slots →
    arguments (ev.resolveAt (p.depth + 1)) p.document slots p.session.counted = (.ok args, s) →
    ev.callFunction f args s = (.ok result, s') → R s s'

/-- Where a document is resolved from a point on, its session is related to the one it ends with. -/
def RelatesAt (ev : Evaluator) (R : Session → Session → Prop) (p : Point) : Prop :=
  ∀ d s, ev.outcome p = (.ok d, s) → R p.session s

/-- A call that fails does so within the limit on the work. -/
theorem within_of_failure {f : Function} {span : Span} {slots : List (Option Span)}
    {name message : Text} (hcalls : ev.Calls p f span slots)
    (h : ev.outcome p = (.error (.failure name message), s)) :
    p.session.work + 1 ≤ ev.limits.invocations := by
  by_contra hexhausted
  have hcount : ev.countWork p.session =
      (.error (.tooManyInvocations ev.limits.invocations), p.session.counted) :=
    countWork_eq_error.2 ⟨Nat.lt_of_not_le hexhausted, rfl, rfl⟩
  have hresult : ev.callResult (ev.resolveAt (p.depth + 1)) p.document f slots p.session =
      (.error (.tooManyInvocations ev.limits.invocations), p.session.counted) :=
    Eval.bind_of_error hcount
  rw [outcome_call hcalls, Eval.bind_of_error hresult] at h
  cases h

namespace Along

theorem part (hparts : ∀ q, ev.Move p q → ev.RelatesAt R q) {part : Span} {s s' : Session}
    (move : ev.Move p (ev.enterPart p part s)) {d' : Document}
    (h : ev.resolveAt (p.depth + 1) (p.document.slice part) s = (.ok d', s')) : R s s' := by
  apply hparts _ move d'
  rw [outcome_enterPart, h]

/-- By induction on the slots from the last one on: each argument is entered behind those before
it. -/
theorem arguments (h : ev.Along source state R) (hparts : ∀ q, ev.Move p q → ev.RelatesAt R q)
    {f : Function} {span : Span} {slots done more : List (Option Span)}
    (hcalls : ev.Calls p f span slots) (hwithin : p.session.work + 1 ≤ ev.limits.invocations)
    (hslots : slots = done ++ more) {args : List Arg}
    (hargs : Evaluator.arguments (ev.resolveAt (p.depth + 1)) p.document done p.session.counted =
      (.ok args, s)) : R p.session.counted s := by
  induction done using List.reverseRecOn generalizing more args s with
  | nil =>
    cases hargs
    exact h.refl _
  | append_singleton done slot ih =>
    obtain ⟨before, a, s₁, hbefore, hslot, -⟩ := arguments_concat_eq_ok.1 hargs
    rw [List.append_assoc, List.singleton_append] at hslots
    apply h.trans (ih hslots hbefore)
    cases slot with
    | none =>
      cases hslot
      exact h.refl _
    | some slot =>
      rcases argument_some_eq_ok.1 hslot with ⟨hmark, part, hpart, -⟩ | ⟨-, -, rfl⟩
      · exact Along.part hparts (.argument hcalls hwithin hslots hbefore hmark) hpart
      · exact h.refl _

/-- By induction on the conditions from the last one on, as for arguments. -/
theorem refuted (h : ev.Along source state R) (hparts : ∀ q, ev.Move p q → ev.RelatesAt R q)
    {b : Block} (hresolves : ev.Resolves p b)
    (hwithin : p.session.work + 1 ≤ ev.limits.invocations) {asked later : List Span}
    (hconds : b.conditions = asked ++ later)
    (hasked : Refuted (ev.resolveAt (p.depth + 1)) p.document asked p.session.counted s) :
    R p.session.counted s := by
  induction asked using List.reverseRecOn generalizing later s with
  | nil =>
    cases hasked
    exact h.refl _
  | append_singleton asked c ih =>
    obtain ⟨s₁, hbefore, hlast⟩ := refuted_concat.1 hasked
    rw [List.append_assoc, List.singleton_append] at hconds
    obtain ⟨part, hpart, -⟩ := Eval.map_eq_ok.1 hlast
    apply h.trans (ih hconds hbefore)
    exact Along.part hparts (.condition hresolves hwithin hconds hbefore) hpart

theorem chosenBody (h : ev.Along source state R) (hparts : ∀ q, ev.Move p q → ev.RelatesAt R q)
    {b : Block} (hresolves : ev.Resolves p b) {chosen : List Span}
    (hchosen : ev.chosenBody (ev.resolveAt (p.depth + 1)) p.document b p.session =
      (.ok chosen, s)) : R p.session s := by
  obtain ⟨hwithin, hchoose⟩ := chosenBody_eq_ok.1 hchosen
  apply h.trans (h.counted _)
  cases asked_of_chooseBody hchoose with
  | all refuted => exact h.refuted hparts hresolves hwithin (List.append_nil _).symm refuted
  | some conditions_eq refuted holds =>
    obtain ⟨part, hpart, -⟩ := Eval.map_eq_ok.1 holds
    apply h.trans (h.refuted hparts hresolves hwithin conditions_eq refuted)
    exact Along.part hparts (.condition hresolves hwithin conditions_eq refuted) hpart

theorem callResult (h : ev.Along source state R) (hparts : ∀ q, ev.Move p q → ev.RelatesAt R q)
    (hp : ev.Reached source state p) {f : Function} {span : Span} {slots : List (Option Span)}
    (hcalls : ev.Calls p f span slots) {result : Text}
    (hresult : ev.callResult (ev.resolveAt (p.depth + 1)) p.document f slots p.session =
      (.ok result, s)) : R p.session s := by
  obtain ⟨hwithin, args, s₁, hargs, hcall⟩ := callResult_eq_ok.1 hresult
  have harguments := h.arguments hparts hcalls hwithin (List.append_nil _).symm hargs
  exact h.trans (h.counted _) (h.trans harguments (h.called hp hcalls hargs hcall))

/-- The session of every point of a run is related to the one with which the run succeeds from
there. -/
theorem relates (h : ev.Along source state R) (hp : ev.Reached source state p) :
    ev.RelatesAt R p := by
  induction acc_move hp.listed with
  | intro p _ ih =>
    intro d s hok
    have hparts : ∀ q, ev.Move p q → ev.RelatesAt R q := fun q move => ih q move (hp.tail move)
    cases ev.progress p with
    | done settled houtcome =>
      rw [hok] at houtcome
      cases houtcome
      exact h.refl _
    | stops stop houtcome =>
      rw [hok] at houtcome
      cases houtcome
    | fails move part houtcome =>
      rw [hok] at houtcome
      cases houtcome
    | moves move depth houtcome =>
      rw [hok] at houtcome
      have hlater := hparts _ move d s houtcome.symm
      cases move with
      | leave => exact hlater
      | call calls returns => exact h.trans (h.callResult hparts hp calls returns) hlater
      | block resolves chooses => exact h.trans (h.chosenBody hparts resolves chooses) hlater
      | argument | condition => exact absurd depth (Nat.succ_ne_self _)

/-- The sessions of two points that a move leads from and to are related, since what comes between
them succeeds. -/
theorem move {q : Point} (h : ev.Along source state R) (hp : ev.Reached source state p)
    (move : ev.Move p q) : R p.session q.session := by
  have hparts : ∀ q, ev.Move p q → ev.RelatesAt R q := fun q move => h.relates (hp.tail move)
  cases move with
  | leave => exact h.refl _
  | call calls returns => exact h.callResult hparts hp calls returns
  | argument calls within slots_eq earlier =>
    exact h.trans (h.counted _) (h.arguments hparts calls within slots_eq earlier)
  | block resolves chooses => exact h.chosenBody hparts resolves chooses
  | condition resolves within conditions_eq earlier =>
    exact h.trans (h.counted _) (h.refuted hparts resolves within conditions_eq earlier)

/-- If the relation holds where calls fail too, the session of every point is related to the one that
the run ends with. -/
theorem outcome (h : ev.Along source state R)
    (hcall : ∀ {p f span slots args s}, ev.Reached source state p → ev.Calls p f span slots →
      Evaluator.arguments (ev.resolveAt (p.depth + 1)) p.document slots p.session.counted =
        (.ok args, s) → R s (ev.callFunction f args s).2)
    (hp : ev.Reached source state p) : R p.session (ev.outcome p).2 := by
  induction acc_move hp.listed with
  | intro p _ ih =>
    cases ev.progress p with
    | done settled houtcome =>
      rw [houtcome]
      exact h.refl _
    | moves move depth houtcome =>
      rw [houtcome]
      exact h.trans (h.move hp move) (ih _ move (hp.tail move))
    | fails move part houtcome =>
      have hpart := h.trans (h.move hp move) (ih _ move (hp.tail move))
      rwa [part, ← houtcome] at hpart
    | stops stop houtcome =>
      rw [houtcome]
      cases stop with
      | tooDeep | structural | usage => exact h.refl _
      | tooManyInvocations => exact h.counted _
      | failure calls resolved fails =>
        have hparts : ∀ q, ev.Move p q → ev.RelatesAt R q := fun q move => h.relates (hp.tail move)
        have hfailed := hcall hp calls resolved
        rw [fails] at hfailed
        have harguments := h.arguments hparts calls (within_of_failure calls houtcome)
          (List.append_nil _).symm resolved
        exact h.trans (h.counted _) (h.trans harguments hfailed)

end Along

/-! ### The log of a successful run -/

theorem alongRan (ev : Evaluator) (source : Text) (state : ExecutionState) :
    ev.Along source state fun s s' => ∃ order, ev.Ran source state s.log order s'.log where
  refl s := ⟨[], .nil⟩
  trans := by
    rintro s₁ s₂ s₃ ⟨order, h⟩ ⟨order', h'⟩
    exact ⟨order ++ order', h.append h'⟩
  counted s := ⟨[], .nil⟩
  called := by
    intro p f span slots args result s s' hp hcalls hargs hcall
    obtain ⟨x, hx⟩ := hcalls.exists_place hp
    obtain ⟨outcome, hlog⟩ := callFunction_record hcall
    refine ⟨[x], ?_⟩
    rw [hlog]
    exact .snoc .nil ⟨p, f, span, slots, result, s, s', hp, hcalls, hx, rfl, hargs, rfl, hcall, hlog⟩

/-- The calls that a successful run adds to the log are calls of the run that completed one after
the other. -/
theorem Reached.ran (hp : ev.Reached source state p) (hok : ev.outcome p = (.ok d, s)) :
    ∃ order, ev.Ran source state p.session.log order s.log :=
  (alongRan ev source state).relates hp d s hok

end Stencil.Evaluator
