import Stencil.Artifacts
import Stencil.State
import Stencil.Text.Split
/-!
# Functions

A function has a name, says whether its argument list may be left out, and computes an outcome from
its arguments, the state and a context that it can only read. An empty slot of an argument list is
an absent argument, which differs from an empty text.

Every name begins with a `$`; a name given without it gains it. `FunctionName` keeps the rest of the
name. Two names are the same when they differ in the case of ASCII letters at most.
-/

namespace Stencil

/-- The name of a function, without the `$` at its start. -/
structure FunctionName where
  stem : Text
deriving DecidableEq, Repr

namespace FunctionName

/-- The name that a text gives, with or without a `$` in front. -/
def ofText : Text → FunctionName
  | '$' :: stem => ⟨stem⟩
  | stem => ⟨stem⟩

/-- The name as it is written in documents. -/
def text (n : FunctionName) : Text := '$' :: n.stem

/-- What same names have in common. -/
def key (n : FunctionName) : Text := Text.lowerAscii n.stem

@[simp] theorem ofText_text (n : FunctionName) : ofText n.text = n := rfl

end FunctionName

/-- One argument, `none` for an empty slot. -/
abbrev Arg := Option Text

/-- Who asks for an evaluation: a command and its arguments, and a seed for random draws. -/
structure Invocation where
  command : Text
  args : List Text
  seed : Nat
deriving DecidableEq, Repr

/-- What a call can read besides its arguments and the state. -/
structure CallContext where
  /-- The registered name of the function. -/
  function : Text
  invocation : Invocation
  artifacts : Artifacts
  /-- A number to draw from. -/
  entropy : Nat
deriving DecidableEq, Repr

inductive Outcome where
  /-- The text that replaces the call; `none` is spliced as the empty text. -/
  | value (text : Option Text)
  /-- A replacement text and a patch of the artifacts. -/
  | withArtifacts (text : Option Text) (patch : Patch)
  /-- The call failed, and with it the evaluation. -/
  | failure (message : Text)
deriving DecidableEq, Repr

namespace Outcome

def text (t : Text) : Outcome := value (some t)

def nothing : Outcome := value none

def patched (p : Patch) : Outcome := withArtifacts none p

end Outcome

structure Function where
  name : FunctionName
  /-- Whether the name without an argument list is an error. -/
  brackets : Bool
  /-- The names of the parameters, for usage hints. -/
  params : List Text
  call : CallContext → List Arg → ExecutionState → Outcome × ExecutionState

namespace Function

/-- The function with an argument list of its parameters. -/
def usage (f : Function) : Text := f.name.text ++ '[' :: Text.join [';'] f.params ++ [']']

end Function

end Stencil
