import Stencil.Block
import Stencil.Numeral.Integer
import Stencil.Text.Split
/-!
# Errors and diagnostics

An evaluation stops at the first error. A malformed condition is no error; it is a condition that is
not true. A diagnostic is what a reader of the error sees: a message, and a hint where one helps.
-/

namespace Stencil

inductive EvalError where
  | structural (cause : BlockError)
  /-- A function that needs an argument list stands without one. -/
  | usage (function : Text) (params : List Text)
  | failure (function : Text) (message : Text)
  | tooDeep (limit : Nat)
  | tooManyInvocations (limit : Nat)
deriving DecidableEq, Repr

structure Diagnostic where
  message : Text
  hint : Option Text
deriving DecidableEq, Repr

namespace EvalError

def message : EvalError → Text
  | structural cause => cause.message.toList
  | usage function _ => "Invalid ".toList ++ function ++ " usage: Missing brackets".toList
  | failure function message => function ++ ": ".toList ++ message
  | tooDeep limit => "nesting deeper than ".toList ++ Numeral.digits limit ++ " levels".toList
  | tooManyInvocations limit => "more than ".toList ++ Numeral.digits limit ++ " invocations".toList

def hint? : EvalError → Option Text
  | usage function params =>
    some ("Usage: ".toList ++ function ++ '[' :: Text.join [';'] params ++ [']'])
  | _ => none

def diagnostic (e : EvalError) : Diagnostic := ⟨e.message, e.hint?⟩

end EvalError

/-- The diagnostic in one line. -/
def Diagnostic.line (d : Diagnostic) : Text :=
  match d.hint with
  | none => d.message
  | some hint => d.message ++ [' ', '('] ++ hint ++ [')']

end Stencil
