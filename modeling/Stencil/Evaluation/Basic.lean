import Stencil.CallSite
import Stencil.Condition.Parse
import Stencil.Evaluation.Session
import Stencil.Registry
import Stencil.Worklist
/-!
# Evaluation

A document is resolved in passes. A pass takes the worklist of the document and works through it:

* a name that stands inside a block waits until the branch is chosen, so the innermost block is
  resolved instead (`resolveBlock`), and a new pass begins;
* any other name is called where it first stands (`invoke`), and its escaped result takes the place
  of the call.

Arguments and conditions are resolved in the same way, one level deeper. Each step that resolves
parts takes `nested`, which resolves a part; `resolve` ties the knot, by recursion on the levels
that are left. The passes of a document are bounded by the number of its `$`: a block that is
resolved loses at least the `$` of its `$if[`, and a result brings none.
-/

namespace Stencil

/-- What stays the same during an evaluation. -/
structure Evaluator where
  registry : Registry
  limits : Limits
  /-- Whether every `$elseif` needs its `$endelseif`. -/
  strict : Bool
  invocation : Invocation

/-- What a resolved document shows: its codes are read, and the blanks at its ends are dropped. -/
def Document.rendered (d : Document) : Text := Text.trim (Text.unescape d.text)

namespace Evaluator

/-- Resolves a part of a document. -/
abbrev Nested := Document → Eval Document

/-! ### Calls -/

/-- One more unit of work, if the limit allows it. -/
def countWork (ev : Evaluator) : Eval Unit := do
  modify fun s => { s with work := s.work + 1 }
  if ev.limits.invocations < (← get).work then throw (.tooManyInvocations ev.limits.invocations)

/-- The argument in a slot. Without markers in its source there is nothing to resolve. -/
def argument (nested : Nested) (d : Document) : Option Span → Eval Arg
  | none => pure none
  | some s => do
    let part := d.slice s
    if part.hasMarker then return some (← nested part).rendered
    else return some (Text.unescape part.text)

def arguments (nested : Nested) (d : Document) (slots : List (Option Span)) : Eval (List Arg) :=
  slots.mapM (argument nested d)

/-- A number to draw from, fixed by the seed and the work done so far. -/
def entropyAt (seed work : Nat) : Nat := (randNat (mkStdGen (seed + work)) 0 Numeral.countBound).1

/-- What a function can read when it is called in a session. -/
def contextIn (ev : Evaluator) (f : Function) (s : Session) : CallContext :=
  ⟨f.name.text, ev.invocation, s.artifacts, entropyAt ev.invocation.seed s.work⟩

def callFunction (ev : Evaluator) (f : Function) (args : List Arg) : Eval Text := fun s =>
  let (outcome, state) := f.call (ev.contextIn f s) args s.state
  s.complete ⟨f.name.text, args, outcome⟩ state

/-- The document with a call in a span replaced by its result. -/
def perform (ev : Evaluator) (nested : Nested) (d : Document) (f : Function) (span : Span)
    (slots : List (Option Span)) : Eval Document := do
  ev.countWork
  let args ← arguments nested d slots
  let result ← ev.callFunction f args
  return d.splice span (.literal (Text.escape result))

/-- The document after the call of a name where it first stands. A name that is not to be called
there is left as text. -/
def invoke (ev : Evaluator) (nested : Nested) (d : Document) (name : Text) : Eval Document :=
  match CallSite.find d name with
  | .absent | .escaped _ | .unterminated _ => pure d
  | .bare span =>
    match ev.registry.get? name with
    | none => pure d
    | some f =>
      if f.brackets then throw (.usage f.name.text f.params) else ev.perform nested d f span []
  | .call span slots =>
    match ev.registry.get? name with
    | none => pure d
    | some f => ev.perform nested d f span slots

/-! ### Blocks -/

def conditionHolds (nested : Nested) (d : Document) (s : Span) : Eval Bool := do
  let resolved ← nested (d.slice s)
  return Condition.evaluate resolved.text

/-- The body of the first alternative whose condition is true, or else the given one. Later
conditions are not resolved. -/
def chooseAlternative (nested : Nested) (d : Document) (otherwise : List Span) :
    List Alternative → Eval (List Span)
  | [] => pure otherwise
  | a :: rest => do
    if ← conditionHolds nested d a.condition then return [a.body]
    else chooseAlternative nested d otherwise rest

def chooseBody (nested : Nested) (d : Document) (b : Block) : Eval (List Span) := do
  if ← conditionHolds nested d b.condition then return b.body
  else chooseAlternative nested d b.otherwise b.alternatives

/-- The document with its innermost block replaced by the chosen body. -/
def resolveBlock (ev : Evaluator) (nested : Nested) (d : Document) : Eval Document :=
  match Block.findInnermost d.text ev.strict with
  | .error cause => throw (.structural cause)
  | .ok b => do
    ev.countWork
    let body ← chooseBody nested d b
    return d.splice b.span (d.gather body)

/-! ### Passes -/

def names (ev : Evaluator) : List Text := Worklist.withControls ev.registry.names

/-- Whether the next thing to do for a name is to resolve a block: the name is a control name, or it
first stands inside a block. -/
def isPending (d : Document) (name : Text) : Bool :=
  Worklist.isControl name || (d.findName? name 0).any (Block.isInside d.text)

inductive Pass where
  /-- The worklist is done. -/
  | settled (document : Document)
  /-- A block was resolved. -/
  | restarted (document : Document)

def runPass (ev : Evaluator) (nested : Nested) : List Text → Document → Eval Pass
  | [], d => pure (.settled d)
  | name :: rest, d => do
    if isPending d name then return .restarted (← ev.resolveBlock nested d)
    else
      let d' ← ev.invoke nested d name
      runPass ev nested rest d'

/-- At most `n` passes over a document. -/
def passes (ev : Evaluator) (nested : Nested) : Nat → Document → Eval Document
  | 0, d => pure d
  | n + 1, d => do
    match ← ev.runPass nested (Worklist.ofText ev.names d.text) d with
    | .settled d' => return d'
    | .restarted d' => passes ev nested n d'

/-- The document with every call and every block resolved, with some levels of nesting left. -/
def resolve (ev : Evaluator) : Nat → Document → Eval Document
  | 0, _ => throw (.tooDeep ev.limits.depth)
  | levels + 1, d => ev.passes (ev.resolve levels) (d.text.count '$') d

/-! ### Whole evaluations -/

/-- A successful evaluation. -/
structure Evaluation where
  text : Text
  artifacts : Artifacts
  /-- The state as the last call left it. -/
  state : ExecutionState

/-- The outcome of an evaluation, and the calls that completed. -/
structure Report where
  result : Except EvalError Evaluation
  calls : List CallRecord

def evaluate (ev : Evaluator) (source : Text) (state : ExecutionState) : Report :=
  match ev.resolve (ev.limits.depth + 1) (.source source) (.start state) with
  | (.ok d, s) => ⟨.ok ⟨d.rendered, s.artifacts, s.state⟩, s.calls⟩
  | (.error e, s) => ⟨.error e, s.calls⟩

end Evaluator

end Stencil
