import Stencil.Library
/-!
# What standard functions answer

A body runs from a state, and gives an outcome or a fault and in both cases a state. `Answers` is the
claim that with an outcome the relation holds of it and of the state that is left, and that with a
fault the state is the one that the body started from. Reading an argument neither reads nor writes
the state, so a body that reads one first answers what it answers afterwards (`Answers.read`). Once
something is written nothing may fail any more. For each body that branches it is said once what it
can answer. A call answers what the body answers, or fails and leaves the state (`Answers.call`).
-/

namespace Stencil.Library

variable {ctx : CallContext} {args : List Arg} {s s' : ExecutionState} {outcome : Outcome}
  {relation : Outcome → ExecutionState → Prop}

/-- From the state, whatever is answered is as the relation says, and whatever fails has written
nothing. -/
def Answers (relation : Outcome → ExecutionState → Prop) (s : ExecutionState)
    (action : Action Outcome) : Prop :=
  match action s with
  | (.ok outcome, s') => relation outcome s'
  | (.error _, s') => s' = s

/-- An outcome that is given at once leaves the state. -/
theorem answers_return (h : relation outcome s) : Answers relation s (pure outcome) := h

theorem answers_reply {t : Text} (h : relation (.text t) s) : Answers relation s (reply t) := h

/-- So does a fault. -/
theorem answers_throw (fault : Fault) : Answers relation s (throw fault) := rfl

/-- What a body does with the state it reads, it does from that state. -/
theorem answers_get {f : ExecutionState → Action Outcome} (h : Answers relation s (f s)) :
    Answers relation s (get >>= f) := h

/-- A body that writes the state as its last step. -/
theorem answers_modify {f : ExecutionState → ExecutionState} (h : relation outcome (f s)) :
    Answers relation s (modify f >>= fun _ => pure outcome) := h

/-- A body that reads an argument, or fails because it is not there or not of its kind. -/
theorem Answers.read {α : Type} {x : Except Fault α} {f : α → Action Outcome}
    (h : ∀ a, x = .ok a → Answers relation s (f a)) :
    Answers relation s ((liftM x : Action α) >>= f) := by
  cases x with
  | error fault => exact answers_throw fault
  | ok a => exact h a rfl

/-- The fault of a body becomes a failure of the call. -/
theorem Answers.call {body : Body} (h : Answers relation s (body ctx args))
    (hfailure : ∀ message, relation (.failure message) s) :
    relation (body.call ctx args s).1 (body.call ctx args s).2 := by
  rw [Answers] at h
  rw [Body.call]
  rcases hbody : body ctx args s with ⟨fault | outcome, s'⟩
  · rw [hbody] at h
    subst h
    exact hfailure _
  · rw [hbody] at h
    exact h

/-! ### Bodies with branches -/

/-- A draw with a name that has none is kept; any other call leaves the state. -/
theorem answers_random (hread : ∀ n, relation (.text (Numeral.integerText n)) s)
    (hdraw : ∀ name n, text? args 2 = some name → s.getDraw name = none →
      relation (.text (Numeral.integerText n)) { s with draws := s.draws.set name n }) :
    Answers relation s (random ctx args) := by
  refine .read fun low _ => .read fun high _ => ?_
  -- the bounds are the wrong way round
  split
  · exact answers_throw _
  · cases hname : text? args 2 with
    | none => exact answers_reply (hread _)
    | some name =>
      have hkept : relation (.text (Numeral.integerText
          (s.drawOnce name (drawBetween low high ctx.entropy)).1))
          (s.drawOnce name (drawBetween low high ctx.entropy)).2 := by
        rw [ExecutionState.drawOnce]
        -- a number under that name is taken again, otherwise the draw is added
        cases hold : s.getDraw name with
        | some n => exact hread n
        | none => exact hdraw name _ hname hold
      exact hkept

/-- Without an argument the time zone is read, with one it is set or refused. -/
theorem answers_timezone (hread : relation (.text s.timezone) s)
    (hset : ∀ zone, relation .nothing { s with timezone := zone }) :
    Answers relation s (timezone ctx args) := by
  unfold timezone
  split
  · exact answers_get (answers_reply hread)
  · dsimp only
    split
    · exact answers_throw _
    · exact answers_modify (hset _)

/-- Sleeping is refused for a negative time. -/
theorem answers_sleep (h : relation .nothing s) : Answers relation s (sleep ctx args) := by
  refine .read fun milliseconds _ => ?_
  split
  · exact answers_throw _
  · exact answers_return h

/-- Repeating is refused for a negative count and for a text that would be too long. -/
theorem answers_repeatText (h : ∀ t, relation (.text t) s) :
    Answers relation s (repeatText ctx args) := by
  refine .read fun count _ => ?_
  split
  · exact answers_throw _
  · split
    · exact answers_throw _
    · exact answers_reply (h _)

/-- The arguments of the caller are read all at once or one by one. -/
theorem answers_callerArgs (h : ∀ t, relation (.text t) s) :
    Answers relation s (callerArgs ctx args) := by
  unfold callerArgs
  split
  · exact answers_reply (h _)
  · exact .read fun _ _ => answers_reply (h _)

/-- Elements are added of known kinds only. -/
theorem answers_addElement (h : ∀ patch, relation (.patched patch) s) :
    Answers relation s (addElement ctx args) := by
  refine .read fun word _ => ?_
  split
  · exact answers_throw _
  · exact answers_return (h _)

end Stencil.Library
