import Stencil.Condition.Parse
import Stencil.Library.Argument
/-!
# Conditions, variables, arrays and splits

These functions read and write the state. A missing variable reads as the empty text, and so do a
missing array, an index beyond the last item, and an item that was an empty slot.
-/

namespace Stencil.Library

/-- The truth of a condition. Codes in the argument have been read once; the markers are escaped
again, so that the operands are read exactly once. -/
def checkCondition : Body := fun _ args =>
  let holds := Condition.evaluate (Text.escape ((text? args 0).getD []))
  reply (if holds then "true" else "false").toList

def letVariable : Body := fun _ args => do
  let name ← text args 0
  modify (·.setVariable name ((text? args 1).getD []))
  return .nothing

def getVariable : Body := fun _ args => do
  let name ← text args 0
  reply (((← get).getVariable name).getD [])

def unsetVariable : Body := fun _ args => do
  let name ← text args 0
  modify (·.unsetVariable name)
  return .nothing

def createArray : Body := fun _ args => do
  let name ← text args 0
  modify (·.setArray name ((args.drop 1).map (·.getD [])))
  return .nothing

def arrayAt : Body := fun _ args => do
  let name ← text args 0
  let i ← index args 1
  reply ((((← get).getArray name).bind (·[i]?)).getD [])

def arrayLength : Body := fun _ args => do
  let name ← text args 0
  reply (Numeral.digits (((← get).getArray name).getD []).length)

/-- The items with a separator between them, a comma and a blank unless another one is given. -/
def arrayJoin : Body := fun _ args => do
  let name ← text args 0
  let separator := (text? args 1).getD [',', ' ']
  reply (Text.join separator (((← get).getArray name).getD []))

/-- The pieces of a text at a separator. The empty separator splits it into its characters. -/
def splitPieces (separator t : Text) : List Text :=
  if separator.isEmpty then t.map ([·]) else Text.split separator t

def textSplit : Body := fun _ args => do
  let separator ← text args 1
  modify fun s => { s with splits := splitPieces separator ((text? args 0).getD []) }
  return .nothing

def splitText : Body := fun _ args => do
  let i ← index args 0
  reply (((← get).splits[i]?).getD [])

def splitCount : Body := fun _ _ => do reply (Numeral.digits (← get).splits.length)

def variableFunctions : List Function :=
  [standard "checkCondition" true ["condition"] checkCondition,
    standard "let" true ["name", "value"] letVariable,
    standard "get" true ["name"] getVariable,
    standard "unset" true ["name"] unsetVariable,
    standard "createArray" true ["name", "item"] createArray,
    standard "arrayAt" true ["name", "index"] arrayAt,
    standard "arrayLength" true ["name"] arrayLength,
    standard "arrayJoin" true ["name", "separator"] arrayJoin,
    standard "textSplit" true ["text", "separator"] textSplit,
    standard "splitText" true ["index"] splitText,
    standard "splitCount" false [] splitCount]

end Stencil.Library
