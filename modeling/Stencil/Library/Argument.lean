import Stencil.Function
import Stencil.Numeral.Double
import Stencil.Numeral.Integer
/-!
# Arguments of standard functions

A standard function reads its arguments, reads and writes the state, and gives an outcome or fails
for one of the causes of `Fault`. `standard` makes it a function that documents can call: a fault
becomes a failure with the name of the function in front. What was written to the state before a
fault stays written.
-/

namespace Stencil.Library

inductive Fault where
  /-- No text at a place of the argument list, counted from 0. -/
  | missing (place : Nat)
  | notInteger (text : Text)
  | notNumber (text : Text)
  | outOfRange (index : Int)
  | emptyRange (low high : Int)
  | badTimezone (text : Text)
  | negativeCount (count : Int)
  | tooLong
  | negativeDuration (milliseconds : Int)
  | unknownKind (text : Text)
deriving DecidableEq, Repr

/-- The longest text that repetition makes, in bytes: `2 ^ 20`. -/
def maxRepeatBytes : Nat := 1048576

namespace Fault

/-- What is wrong, without the name of the function. -/
def reason : Fault → String
  | missing place => s!"argument {place + 1} missing"
  | notInteger t => "'" ++ t.string ++ "' is not an integer"
  | notNumber t => "'" ++ t.string ++ "' is not a number"
  | outOfRange n => s!"index {n} out of range"
  | emptyRange low high => s!"min {low} is greater than max {high}"
  | badTimezone t => "invalid timezone '" ++ t.string ++ "'"
  | negativeCount n => s!"negative count {n}"
  | tooLong => s!"result longer than {maxRepeatBytes} bytes"
  | negativeDuration n => s!"negative duration {n}"
  | unknownKind t => ElementKind.unknownMessage t

/-- The message of a failed call. -/
def message (fault : Fault) (function : Text) : Text :=
  function ++ [':', ' '] ++ fault.reason.toList

end Fault

/-- A step of a standard function. The state goes on to exist where it fails. -/
abbrev Action := ExceptT Fault (StateM ExecutionState)

/-- What a standard function does with its arguments. -/
abbrev Body := CallContext → List Arg → Action Outcome

def Body.call (body : Body) (ctx : CallContext) (args : List Arg) (s : ExecutionState) :
    Outcome × ExecutionState :=
  match body ctx args s with
  | (.ok outcome, s') => (outcome, s')
  | (.error fault, s') => (.failure (fault.message ctx.function), s')

def standard (name : String) (brackets : Bool) (params : List String) (body : Body) : Function :=
  ⟨⟨name.toList⟩, brackets, params.map String.toList, body.call⟩

/-! ### Reading arguments -/

/-- The text at a place of the argument list, if there is one. -/
def text? (args : List Arg) (place : Nat) : Option Text := (args[place]?).join

/-- The text at a place of the argument list. -/
def text (args : List Arg) (place : Nat) : Except Fault Text :=
  match text? args place with
  | some t => .ok t
  | none => .error (.missing place)

def integer (args : List Arg) (place : Nat) : Except Fault Int := do
  let t := Text.trim (← text args place)
  match Numeral.integer? t with
  | some n => .ok n
  | none => .error (.notInteger t)

def number (args : List Arg) (place : Nat) : Except Fault Numeral.Double := do
  let t := Text.trim (← text args place)
  match Numeral.Double.parse? t with
  | some x => .ok x
  | none => .error (.notNumber t)

/-- The index at a place of the argument list. Documents count from 1, the result from 0. -/
def index (args : List Arg) (place : Nat) : Except Fault Nat := do
  let n ← integer args place
  if 1 ≤ n then .ok (n.toNat - 1) else .error (.outOfRange n)

/-- The answer that replaces a call by a text. -/
def reply (t : Text) : Action Outcome := return .text t

end Stencil.Library
