import Stencil.Proofs.Bounds
import Stencil.Proofs.Limits
/-!
# Required endings

Whether every `$elseif[` needs its `$endelseif` is asked at one place, where an alternative is cut
out and its ending does not stand before the next one. Up to there both readings of a block go the
same way, so the strict reading gives the same block, or the same error, or it stops at the missing
ending (`findInnermost_strict`). The strict evaluator is therefore `Tighter` than the other one, with
this single error of its own.
-/

namespace Stencil.Block

variable {t : Text} {regionEnd : Nat}

/-! ### One block, read in both ways -/

theorem alternativeAt_strict (t : Text) (condition : Span) (next : Nat) :
    alternativeAt t true condition next = alternativeAt t false condition next ∨
      alternativeAt t true condition next = .error .missingEndElseIf := by
  unfold alternativeAt
  simp only
  cases (Keyword.endElseIf.find? t (condition.stop + 1)).filter (·.stop ≤ next) with
  | none => exact .inr rfl
  | some ending => exact .inl rfl

/-- Where endings may be missing an alternative is always found. -/
theorem exists_alternativeAt (t : Text) (condition : Span) (next : Nat) :
    ∃ found, alternativeAt t false condition next = .ok found := by
  unfold alternativeAt
  simp only
  cases (Keyword.endElseIf.find? t (condition.stop + 1)).filter (·.stop ≤ next) with
  | none => exact ⟨_, rfl⟩
  | some ending => exact ⟨_, rfl⟩

/-- The strict reading of a region goes along with the other one up to the first missing ending. -/
theorem cutAlternatives_strict (position : Nat) (openers : List Span) :
    cutAlternatives t true regionEnd position openers =
        cutAlternatives t false regionEnd position openers ∨
      cutAlternatives t true regionEnd position openers = .error .missingEndElseIf := by
  induction openers generalizing position with
  | nil => exact .inl rfl
  | cons opener later ih =>
    rw [cutAlternatives, cutAlternatives]
    split
    · exact ih position
    cases (Bracket.closing? t (opener.stop - 1)).filter (· < regionEnd) with
    | none => exact .inl rfl
    | some closing =>
      simp only
      rcases alternativeAt_strict t ⟨opener.stop, closing⟩
        (((later.find? (closing < ·.start)).map (·.start)).getD regionEnd) with heq | hmissing
      · rw [heq]
        obtain ⟨⟨a, position'⟩, ha⟩ := exists_alternativeAt t ⟨opener.stop, closing⟩
          (((later.find? (closing < ·.start)).map (·.start)).getD regionEnd)
        rw [ha]
        simp only
        -- the rest of the region is read from the same position on
        rcases ih position' with heq | hmissing
        · exact .inl (by rw [heq])
        · exact .inr (by rw [hmissing])
      · exact .inr (by rw [hmissing])

/-- All that can go wrong with alternatives whose endings may be missing is a condition that is not
closed. -/
theorem cutAlternatives_eq_error {position : Nat} {openers : List Span} {cause : BlockError}
    (h : cutAlternatives t false regionEnd position openers = .error cause) :
    cause = .unclosedElseIfCondition := by
  induction openers generalizing position with
  | nil => cases h
  | cons opener later ih =>
    rw [cutAlternatives] at h
    split at h
    · exact ih h
    split at h
    · cases h
      rfl
    · next closing _ =>
      simp only at h
      obtain ⟨⟨a, position'⟩, ha⟩ := exists_alternativeAt t ⟨opener.stop, closing⟩
        (((later.find? (closing < ·.start)).map (·.start)).getD regionEnd)
      rw [ha] at h
      simp only at h
      split at h
      · next hrest =>
        cases h
        exact ih hrest
      · cases h

/-- A block that is read strictly is the block, or the error, that is read otherwise, or an ending
is missing. -/
theorem findInnermost_strict (t : Text) :
    findInnermost t true = findInnermost t false ∨
      findInnermost t true = .error .missingEndElseIf := by
  unfold findInnermost
  split
  · exact .inl rfl
  cases Keyword.ifOpen.findLast? t with
  | none => exact .inl rfl
  | some opener =>
    simp only
    cases Bracket.closing? t (opener.stop - 1) with
    | none => exact .inl rfl
    | some closing =>
      simp only
      cases Keyword.endIf.find? t (closing + 1) with
      | none => exact .inl rfl
      | some endIf =>
        simp only
        rcases @cutAlternatives_strict t endIf.start (closing + 1)
          ((Keyword.elseIfOpen.findAll t).filter (·.start < endIf.start)) with heq | hmissing
        · exact .inl (by rw [heq])
        · exact .inr (by rw [hmissing])

/-- No ending is missing where none is required. -/
theorem findInnermost_ne_missingEndElseIf (t : Text) :
    findInnermost t false ≠ .error .missingEndElseIf := by
  intro h
  unfold findInnermost at h
  split at h
  · cases h
  split at h
  · cases h
  split at h
  · cases h
  split at h
  · cases h
  simp only at h
  split at h
  · next hcut =>
    cases h
    cases cutAlternatives_eq_error hcut
  · cases h

/-- The first of two alternatives has no ending. -/
example :
    let t := "$if[a]x$elseif[b]y$elseif[c]z$endelseif$endif".toList
    findInnermost t true = .error .missingEndElseIf ∧
      findInnermost t false =
        .ok ⟨⟨0, 45⟩, ⟨4, 5⟩, [⟨6, 7⟩], [⟨⟨15, 16⟩, ⟨17, 18⟩⟩, ⟨⟨26, 27⟩, ⟨28, 29⟩⟩], []⟩ := by
  decide

end Stencil.Block

namespace Stencil.Evaluator

/-! ### Whole evaluations -/

theorem tighter_strict (ev : Evaluator) :
    Tighter (· = .structural .missingEndElseIf) { ev with strict := true }
      { ev with strict := false } where
  registry := rfl
  invocation := rfl
  depth_le := le_rfl
  depth h := absurd h (Nat.lt_irrefl _)
  invocations_le := le_rfl
  invocations h := absurd h (Nat.lt_irrefl _)
  blocks t := (Block.findInnermost_strict t).imp_right fun h => ⟨_, h, rfl⟩

/-- A run in which no ending is required stops at none that is missing. -/
theorem not_missingEndElseIf (ev : Evaluator) (source : Text) (state : ExecutionState) :
    ({ ev with strict := false }.evaluate source state).result ≠
      .error (.structural .missingEndElseIf) := by
  intro h
  obtain ⟨p, s, -, hstop⟩ := exists_stop_of_evaluate h
  cases hstop with
  | structural next pending malformed => exact Block.findInnermost_ne_missingEndElseIf _ malformed

/-- Strictness only rejects. An evaluation in which every `$elseif[` needs its `$endelseif` reports
the same text, artifacts, state and calls, or the same error, as the one in which it does not, or
else it stops at a missing ending, after calls that are the first ones of the other evaluation. The
other evaluation never stops there. -/
theorem strictness_only_rejects (ev : Evaluator) (source : Text) (state : ExecutionState) :
    ({ ev with strict := true }.evaluate source state =
        { ev with strict := false }.evaluate source state ∨
      ({ ev with strict := true }.evaluate source state).result =
          .error (.structural .missingEndElseIf) ∧
        ({ ev with strict := true }.evaluate source state).calls <+:
          ({ ev with strict := false }.evaluate source state).calls) ∧
    ({ ev with strict := false }.evaluate source state).result ≠
      .error (.structural .missingEndElseIf) := by
  refine ⟨?_, ev.not_missingEndElseIf source state⟩
  rcases (tighter_strict ev).evaluate source state with heq | ⟨e, hresult, rfl, hcalls⟩
  · exact .inl heq
  · exact .inr ⟨hresult, hcalls⟩

end Stencil.Evaluator
