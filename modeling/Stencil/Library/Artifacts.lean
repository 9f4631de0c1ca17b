import Stencil.Library.Argument
/-!
# Functions that change artifacts

A patch replaces whole fields. To add an element or an attachment a function therefore returns all
those so far and the new one behind them.
-/

namespace Stencil.Library

def addElement : Body := fun ctx args => do
  let word ← text args 0
  match ElementKind.parse? word with
  | none => throw (.unknownKind word)
  | some kind =>
    let element := ⟨kind, (text? args 1).getD []⟩
    return .patched { Patch.keep with elements := some (ctx.artifacts.elements ++ [element]) }

def attachment : Body := fun ctx args => do
  let name ← text args 0
  let file := ⟨name, (text? args 1).getD []⟩
  return .patched { Patch.keep with attachments := some (ctx.artifacts.attachments ++ [file]) }

def flags : Body := fun _ args => do
  let value ← text args 0
  return .patched { Patch.keep with flags := some value }

def useMessage : Body := fun _ args => do
  let id ← text args 0
  return .patched { Patch.keep with message := some id }

def artifactFunctions : List Function :=
  [standard "addElement" true ["kind", "content"] addElement,
    standard "attachment" true ["name", "content"] attachment,
    standard "flags" true ["value"] flags,
    standard "useMessage" true ["id"] useMessage]

end Stencil.Library
