import Stencil.Evaluation.Error
import Stencil.Function
/-!
# Sessions

A session is what changes during one evaluation: the state of the functions, the artifacts so far,
the work done, and the log of completed calls. A step of an evaluation either gives a result or
stops with an error; the session goes on to exist in both cases, so the log of a failed evaluation
is known too.
-/

namespace Stencil

structure Limits where
  /-- The deepest nesting of arguments and conditions. -/
  depth : Nat
  /-- Calls and resolved blocks. -/
  invocations : Nat
deriving DecidableEq, Repr

def Limits.default : Limits := ⟨64, 10000⟩

structure CallRecord where
  function : Text
  args : List Arg
  outcome : Outcome
deriving DecidableEq, Repr

structure Session where
  state : ExecutionState
  artifacts : Artifacts
  /-- Calls started and blocks resolved. -/
  work : Nat
  /-- The completed calls, the latest first. -/
  log : List CallRecord

/-- A step of an evaluation. -/
abbrev Eval := ExceptT EvalError (StateM Session)

namespace Session

def start (state : ExecutionState) : Session := ⟨state, .empty, 0, []⟩

/-- The completed calls in the order of their completion. -/
def calls (s : Session) : List CallRecord := s.log.reverse

/-- The session after a completed call, and the text that the call is replaced by. -/
def complete (s : Session) (record : CallRecord) (state : ExecutionState) :
    Except EvalError Text × Session :=
  let s' := { s with state := state, log := record :: s.log }
  match record.outcome with
  | .value t => (.ok (t.getD []), s')
  | .withArtifacts t patch => (.ok (t.getD []), { s' with artifacts := s.artifacts.apply patch })
  | .failure message => (.error (.failure record.function message), s')

end Session

end Stencil
