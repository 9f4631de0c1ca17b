import Stencil.Evaluation.Basic
/-!
# Delivery

The outcome of an evaluation goes to a sink. A sink takes a render and may give it an id, or refuse
it; it takes diagnostics; and it changes by both. `deliver` decides what a sink is given: a
successful evaluation is rendered if it has text, elements or attachments, and a failed one is
reported.

A refused render does not make the evaluation a failure. The id of a result is the one that the sink
gave, and else the message that the evaluation names in place of the delivered one.
-/

namespace Stencil

structure Render where
  /-- `none` if there is no text to show. -/
  text : Option Text
  artifacts : Artifacts
deriving DecidableEq, Repr

/-- A taker of renders and diagnostics, whose own data is of type `σ`. -/
structure Sink (σ : Type) where
  /-- The id of the delivered render, if the sink gives one, or why it refuses. -/
  deliver : Render → σ → Except Text (Option Text) × σ
  report : Diagnostic → σ → σ

/-- What the caller of an evaluation learns. -/
structure RunResult where
  failed : Bool
  id : Option Text
  /-- `none` after an error. -/
  text : Option Text
  artifacts : Artifacts
deriving DecidableEq, Repr

namespace Evaluator

/-- The render of an evaluation, if there is anything to show. -/
def Evaluation.render? (e : Evaluation) : Option Render :=
  if !e.text.isEmpty || e.artifacts.hasContent then
    some ⟨if e.text.isEmpty then none else some e.text, e.artifacts⟩
  else none

/-- The id of a result: the one that the sink gave, or else the message that takes its place. -/
def resultId (delivered : Except Text (Option Text)) (message : Option Text) : Option Text :=
  match delivered with
  | .ok id => id <|> message
  | .error _ => message

/-- The result of an evaluation after it went to a sink, and the sink afterwards. -/
def deliver {σ : Type} (sink : Sink σ) (result : Except EvalError Evaluation) (data : σ) :
    RunResult × σ :=
  match result with
  | .error e => (⟨true, none, none, .empty⟩, sink.report e.diagnostic data)
  | .ok e =>
    match e.render? with
    | none => (⟨false, e.artifacts.message, some e.text, e.artifacts⟩, data)
    | some r =>
      let (delivered, data') := sink.deliver r data
      (⟨false, resultId delivered e.artifacts.message, some e.text, e.artifacts⟩, data')

def run {σ : Type} (ev : Evaluator) (sink : Sink σ) (source : Text) (state : ExecutionState)
    (data : σ) : RunResult × σ :=
  deliver sink (ev.evaluate source state).result data

end Evaluator

/-! ### Two sinks -/

/-- A sink's memory of everything it took, in order. -/
structure Mailbox where
  renders : List Render
  diagnostics : List Diagnostic
deriving DecidableEq, Repr

namespace Mailbox

def empty : Mailbox := ⟨[], []⟩

def id (n : Nat) : Text := "msg-".toList ++ Numeral.digits n

def deliver (r : Render) (m : Mailbox) : Except Text (Option Text) × Mailbox :=
  (.ok (some (id (m.renders.length + 1))), { m with renders := m.renders ++ [r] })

def report (d : Diagnostic) (m : Mailbox) : Mailbox :=
  { m with diagnostics := m.diagnostics ++ [d] }

/-- The sink that keeps everything and numbers the renders. -/
def sink : Sink Mailbox := ⟨deliver, report⟩

end Mailbox

/-- What was written to the two streams of a terminal. -/
structure Terminal where
  output : Text
  errors : Text
deriving DecidableEq, Repr

namespace Terminal

def empty : Terminal := ⟨[], []⟩

/-- The lines of a render: its text, and a summary of its artifacts. -/
def renderLines (r : Render) : List Text := r.text.toList ++ r.artifacts.summary

/-- The lines as they are written, each with a line feed behind it. -/
def written (lines : List Text) : Text := lines.flatMap (· ++ ['\n'])

def complaint (message : Text) : Text := "tmacro: ".toList ++ message

def complain (lines : List Text) (t : Terminal) : Terminal :=
  { t with errors := t.errors ++ written lines }

/-- The sink that writes renders to the output and diagnostics to the error stream. It gives no ids.
-/
def sink : Sink Terminal where
  deliver r t := (.ok none, { t with output := t.output ++ written (renderLines r) })
  report d t := t.complain [complaint d.line]

end Terminal

end Stencil
