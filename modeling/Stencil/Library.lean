import Stencil.Library.Artifacts
import Stencil.Library.Chance
import Stencil.Library.Texts
import Stencil.Library.Variables
import Stencil.Registry
/-!
# The standard library

The functions that every document can call, and the registry of them.
-/

namespace Stencil.Library

/-- The version that `version` answers. -/
def versionText : Text := "0.1.0".toList

/-- The failure that a document asks for. -/
def error : Body := fun _ args => return .failure ((text? args 0).getD "error".toList)

def version : Body := fun _ _ => reply versionText

def generalFunctions : List Function :=
  [standard "error" true ["message"] error,
    standard "version" false [] version]

def functions : List Function :=
  variableFunctions ++ chanceFunctions ++ textFunctions ++ artifactFunctions ++ generalFunctions

def registry : Registry := Registry.empty.addAll functions

end Stencil.Library
