import Stencil.Library.Argument
import Stencil.Text.Case
/-!
# Texts and numbers

Functions of their arguments alone, apart from `args`, which reads the arguments of the caller.
-/

namespace Stencil.Library

def upper : Body := fun _ args => do reply (Text.upper (← text args 0))

def lower : Body := fun _ args => do reply (Text.lower (← text args 0))

def trim : Body := fun _ args => reply (Text.trim ((text? args 0).getD []))

/-- The number of characters. -/
def length : Body := fun _ args => reply (Numeral.digits ((text? args 0).getD []).length)

/-- The text with every occurrence of a part replaced. The empty part occurs nowhere. -/
def replace : Body := fun _ args => do
  let old ← text args 1
  reply (Text.replace old ((text? args 2).getD []) ((text? args 0).getD []))

/-- The text written a number of times. The empty text stays empty however often it is written. -/
def repeated (t : Text) (count : Nat) : Text :=
  if t.isEmpty then [] else (List.replicate count t).flatten

def repeatText : Body := fun _ args => do
  let t := (text? args 0).getD []
  let count ← integer args 1
  if count < 0 then throw (.negativeCount count)
  else if maxRepeatBytes < Text.byteLength t * count.toNat then throw .tooLong
  else reply (repeated t count.toNat)

/-- The total of the arguments from a place on. Empty slots count for nothing. -/
def total (args : List Arg) (sum : Numeral.Total) (place : Nat) :
    List Arg → Except Fault Numeral.Total
  | [] => .ok sum
  | none :: rest => total args sum (place + 1) rest
  | some _ :: rest => do
    let x ← number args place
    total args (sum.add x) (place + 1) rest

def sum : Body := fun _ args => do
  let sum ← total args (.finite .zero) 0 args
  reply sum.text

/-- The arguments of the caller: all of them with blanks between them, or the one at an index. -/
def callerArgs : Body := fun ctx args => do
  match text? args 0 with
  | none => reply (Text.join [' '] ctx.invocation.args)
  | some _ =>
    let i ← index args 0
    reply ((ctx.invocation.args[i]?).getD [])

def textFunctions : List Function :=
  [standard "upper" true ["text"] upper,
    standard "lower" true ["text"] lower,
    standard "trim" true ["text"] trim,
    standard "length" true ["text"] length,
    standard "replace" true ["text", "from", "to"] replace,
    standard "repeat" true ["text", "count"] repeatText,
    standard "sum" true ["number"] sum,
    standard "args" false ["index"] callerArgs]

end Stencil.Library
