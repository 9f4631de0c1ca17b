import Stencil.Numeral.Integer
import Stencil.Text.Blank
import Stencil.Text.Offset
/-!
# Artifacts

Besides text, an evaluation produces artifacts: display elements, attachments, flags, and the name
of a message that takes the place of the delivered one. A function hands in a patch, which replaces
the fields that it carries and keeps the others.
-/

namespace Stencil

inductive ElementKind where
  | embed
  | component
  | sticker
deriving DecidableEq, Repr

namespace ElementKind

def all : List ElementKind := [embed, component, sticker]

def name : ElementKind → Text
  | embed => ['e', 'm', 'b', 'e', 'd']
  | component => ['c', 'o', 'm', 'p', 'o', 'n', 'e', 'n', 't']
  | sticker => ['s', 't', 'i', 'c', 'k', 'e', 'r']

/-- The word of a text, as kinds are compared with it. -/
def word (t : Text) : Text := Text.lowerAscii (Text.trim t)

/-- The kind that a text names, in either case and with blanks around it. -/
def parse? (t : Text) : Option ElementKind := all.find? (·.name == word t)

/-- The complaint about a text that names no kind. -/
def unknownMessage (t : Text) : String := "unknown element kind '" ++ (word t).string ++ "'"

end ElementKind

structure Element where
  kind : ElementKind
  content : Text
deriving DecidableEq, Repr

/-- An attached text file. -/
structure Attachment where
  name : Text
  content : Text
deriving DecidableEq, Repr

/-- What an evaluation has produced besides text. -/
structure Artifacts where
  elements : List Element
  attachments : List Attachment
  flags : Option Text
  /-- The message that replaces the delivered one. -/
  message : Option Text
deriving DecidableEq, Repr

/-- New values for some of the fields of artifacts. -/
structure Patch where
  elements : Option (List Element)
  attachments : Option (List Attachment)
  flags : Option Text
  message : Option Text
deriving DecidableEq, Repr

/-- The patch that changes nothing. -/
def Patch.keep : Patch := ⟨none, none, none, none⟩

namespace Artifacts

def empty : Artifacts := ⟨[], [], none, none⟩

def apply (a : Artifacts) (p : Patch) : Artifacts :=
  ⟨p.elements.getD a.elements, p.attachments.getD a.attachments, p.flags <|> a.flags,
    p.message <|> a.message⟩

/-- An empty patch changes nothing. -/
theorem apply_keep (a : Artifacts) : a.apply .keep = a := by
  simp [apply, Patch.keep]

/-- Whether there is something to deliver besides text. -/
def hasContent (a : Artifacts) : Bool := !a.elements.isEmpty || !a.attachments.isEmpty

def elementLine (e : Element) : Text := '[' :: e.kind.name ++ [']', ' '] ++ e.content

/-- The line that reports an attachment, with its size in bytes. -/
def attachmentLine (a : Attachment) : Text :=
  "[attachment] ".toList ++ a.name ++ " (".toList ++ Numeral.digits (Text.byteLength a.content) ++
    " bytes)".toList

def flagsLine (flags : Text) : Text := "[flags] ".toList ++ flags

/-- One line for each element, each attachment and the flags. -/
def summary (a : Artifacts) : List Text :=
  a.elements.map elementLine ++ a.attachments.map attachmentLine ++
    (a.flags.map flagsLine).toList

end Artifacts

end Stencil
