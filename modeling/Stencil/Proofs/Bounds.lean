import Stencil.Proofs.Outcome
/-!
# Evaluations are bounded by their source

Whatever the limits are, a run does no more work than its source has `$` and nests no deeper than
its source has `[`. Moves therefore come to an end, and limits that are at least as large as these
numbers are never what ends an evaluation.
-/

namespace Stencil.Evaluator

variable {ev : Evaluator} {source : Text} {state : ExecutionState} {p q : Point}

/-- The work done and the `$` that are left are no more than the `$` of the source. -/
theorem Reached.work_le (h : ev.Reached source state p) :
    p.session.work + Text.markers '$' p.document.text ≤ Text.markers '$' source := by
  refine h.invariant
    (fun p => p.session.work + Text.markers '$' p.document.text ≤ Text.markers '$' source) ?_
    fun p q hp hle move => (move.work_le hp).trans hle
  simp [start, enter, Session.start]

/-- The depth and the `[` that are left are no more than the `[` of the source. -/
theorem Reached.depth_le (h : ev.Reached source state p) :
    p.depth + Text.markers '[' p.document.text ≤ Text.markers '[' source := by
  refine h.invariant
    (fun p => p.depth + Text.markers '[' p.document.text ≤ Text.markers '[' source) ?_
    fun p q hp hle move => (move.depth_le hp).trans hle
  simp [start, enter]

/-- Where a call or a block is next, there is a `$` left to pay for it. -/
theorem markers_pos (hp : ev.Listed p)
    (next : (∃ f span slots, ev.Calls p f span slots) ∨ ∃ b, ev.Resolves p b) :
    0 < Text.markers '$' p.document.text := by
  -- a call begins with its `$`, and so does a block
  have hdollar : ∃ i : Nat, p.document.text[i]? = some '$' := by
    rcases next with ⟨f, span, slots, hcalls⟩ | ⟨b, hresolves⟩
    · obtain ⟨name, hhead, -, hcovers⟩ := hcalls.covers hp
      refine ⟨span.start, ?_⟩
      rw [← Document.map_fst_cells, List.getElem?_map, hcovers.head hhead]
      rfl
    · exact ⟨_, hresolves.laid.opener.getElem?_start⟩
  obtain ⟨i, hi⟩ := hdollar
  exact List.countP_pos_iff.2 ⟨'$', List.mem_of_getElem? hi, rfl⟩

/-- What an evaluation results in, in terms of the run. -/
theorem evaluate_result_eq_error {e : EvalError}
    (h : (ev.evaluate source state).result = .error e) :
    ∃ s, ev.outcome (ev.start source state) = (.error e, s) := by
  have hrun : ev.outcome (ev.start source state) =
      ev.resolve (ev.limits.depth + 1) (.source source) (.start state) :=
    (resolveAt_eq_outcome 0 _ _ _).symm
  unfold evaluate at h
  split at h
  · cases h
  · next e' s heq =>
    cases h
    exact ⟨s, by rw [hrun, heq]⟩

/-- A successful evaluation renders the document that the run comes to. -/
theorem evaluate_result_eq_ok {e : Evaluation} (h : (ev.evaluate source state).result = .ok e) :
    ∃ d s, ev.outcome (ev.start source state) = (.ok d, s) ∧
      e = ⟨d.rendered, s.artifacts, s.state⟩ ∧ (ev.evaluate source state).calls = s.calls := by
  have hrun : ev.outcome (ev.start source state) =
      ev.resolve (ev.limits.depth + 1) (.source source) (.start state) :=
    (resolveAt_eq_outcome 0 _ _ _).symm
  unfold evaluate at h ⊢
  split at h
  · next d s heq =>
    cases h
    exact ⟨d, s, by rw [hrun, heq], rfl, rfl⟩
  · cases h

/-- An evaluation reports what its run comes to. -/
theorem evaluate_of_ok {d : Document} {s : Session}
    (h : ev.outcome (ev.start source state) = (.ok d, s)) :
    ev.evaluate source state = ⟨.ok ⟨d.rendered, s.artifacts, s.state⟩, s.calls⟩ := by
  have hrun : ev.resolve (ev.limits.depth + 1) (.source source) (.start state) = (.ok d, s) := by
    rw [← h]
    exact resolveAt_eq_outcome 0 _ _ _
  unfold evaluate
  rw [hrun]

/-- An evaluation that ends with an error reports it with the calls made until then. -/
theorem evaluate_of_error {e : EvalError} {s : Session}
    (h : ev.outcome (ev.start source state) = (.error e, s)) :
    ev.evaluate source state = ⟨.error e, s.calls⟩ := by
  have hrun : ev.resolve (ev.limits.depth + 1) (.source source) (.start state) =
      (.error e, s) := by
    rw [← h]
    exact resolveAt_eq_outcome 0 _ _ _
  unfold evaluate
  rw [hrun]

/-- A failed evaluation was stopped at a point of its run. -/
theorem exists_stop_of_evaluate {e : EvalError}
    (h : (ev.evaluate source state).result = .error e) :
    ∃ p s, ev.Reached source state p ∧ ev.Stops p e s := by
  obtain ⟨s, houtcome⟩ := evaluate_result_eq_error h
  obtain ⟨p, hleads, hstop⟩ := exists_stop (ev.listed_enter _ _ _ _) houtcome
  exact ⟨p, s, hleads, hstop⟩

/-- With a limit that large no run is too deep. -/
theorem not_tooDeep (hdepth : Text.markers '[' source ≤ ev.limits.depth) (n : Nat) :
    (ev.evaluate source state).result ≠ .error (.tooDeep n) := by
  intro h
  obtain ⟨p, s, hreached, hstop⟩ := exists_stop_of_evaluate h
  cases hstop with
  | tooDeep deep =>
    have := hreached.depth_le
    omega

/-- And none has too many invocations. -/
theorem not_tooManyInvocations (hwork : Text.markers '$' source ≤ ev.limits.invocations)
    (n : Nat) : (ev.evaluate source state).result ≠ .error (.tooManyInvocations n) := by
  intro h
  obtain ⟨p, s, hreached, hstop⟩ := exists_stop_of_evaluate h
  cases hstop with
  | tooManyInvocations next exhausted =>
    have hpos := markers_pos hreached.listed next
    have := hreached.work_le
    omega

/-- The work of a run, whether it succeeds or not, never exceeds the number of `$` in the source,
nor does its depth exceed the number of `[`. There is no endless run, the passes over a document
end by themselves, and limits as large as these numbers are never exceeded. -/
theorem bounded_by_source (ev : Evaluator) (source : Text) (state : ExecutionState) :
    (∀ p, ev.Reached source state p →
      p.session.work ≤ Text.markers '$' source ∧ p.depth ≤ Text.markers '[' source) ∧
    (ev.resolve (ev.limits.depth + 1) (.source source) (.start state)).2.work ≤
      Text.markers '$' source ∧
    Acc (fun q p => ev.Move p q) (ev.start source state) ∧
    (∀ depth ≤ ev.limits.depth, ∀ d s, ev.resolveAt depth d s =
      ev.afterPass (ev.resolveAt (depth + 1)) (ev.resolveAt depth)
        (Worklist.ofText ev.names d.text) d s) ∧
    (Text.markers '$' source ≤ ev.limits.invocations →
      Text.markers '[' source ≤ ev.limits.depth → ∀ n,
        (ev.evaluate source state).result ≠ .error (.tooDeep n) ∧
          (ev.evaluate source state).result ≠ .error (.tooManyInvocations n)) := by
  refine ⟨fun p hp => ⟨?_, ?_⟩, ?_, acc_move (ev.listed_enter _ _ _ _),
    fun depth hdepth d s => resolveAt_eq_afterPass hdepth d s,
    fun hwork hdepth n => ⟨not_tooDeep hdepth n, not_tooManyInvocations hwork n⟩⟩
  · have := hp.work_le
    omega
  · have := hp.depth_le
    omega
  -- the work of the whole run is paid for by the `$` of the source
  · have hthrifty := thrifty_resolve ev (ev.limits.depth + 1) (.source source) (.start state)
    rw [Document.text_source] at hthrifty
    simpa [Costs, Session.start] using hthrifty

end Stencil.Evaluator
