import Stencil.Text.Basic
/-!
# The command line

The words of a command line make a request: which configuration to use, which document to evaluate,
and the arguments that the document sees. Options stand in groups behind one dash. An option that
takes a text takes the rest of its word, or else the next word; `-f` does without one if the next
word starts with a dash. Behind `--` every word is an argument of the document.

The words are read one by one. `Expectation` says what the last word still waits for.
-/

namespace Stencil.CommandLine

inductive ConfigChoice where
  /-- The first file found in the usual places. -/
  | search
  | skip
  | file (path : Text)
deriving DecidableEq, Repr

inductive Source where
  | standardInput
  | inline (document : Text)
  | file (path : Text)
deriving DecidableEq, Repr

structure Request where
  config : ConfigChoice
  source : Source
  args : List Text
  /-- Whether to log what happens. -/
  debug : Bool
deriving DecidableEq, Repr

inductive UsageError where
  | missingDocument
  | unknownOption (option : Char)
deriving DecidableEq, Repr

def UsageError.message : UsageError → Text
  | missingDocument => "-c requires a document argument".toList
  | unknownOption c => "unknown option: -".toList ++ [c]

def usageLine : Text :=
  "Usage: tmacro [-d] [-f[<file>]] [-c<document>] [<file>] [-- args...]".toList

/-- A request in progress. -/
structure Draft where
  config : ConfigChoice
  inlined : Option Text
  /-- The words that are no options, the latest first. -/
  plain : List Text
  debug : Bool
deriving DecidableEq, Repr

/-- What the words read so far wait for. -/
inductive Expectation where
  | nothing
  | configFile
  | document
deriving DecidableEq, Repr

namespace Draft

def empty : Draft := ⟨.search, none, [], false⟩

/-- The draft after the letters of a group of options. -/
def options (d : Draft) : Text → Except UsageError (Draft × Expectation)
  | [] => .ok (d, .nothing)
  | 'd' :: rest => options { d with debug := true } rest
  | 'f' :: [] => .ok ({ d with config := .skip }, .configFile)
  | 'f' :: path => .ok ({ d with config := .file path }, .nothing)
  | 'c' :: [] => .ok (d, .document)
  | 'c' :: document => .ok ({ d with inlined := some document }, .nothing)
  | c :: _ => .error (.unknownOption c)

/-- The draft after a word that no option waits for. A lone dash is no option. -/
def word (d : Draft) (w : Text) : Except UsageError (Draft × Expectation) :=
  match w with
  | '-' :: c :: cs => d.options (c :: cs)
  | _ => .ok ({ d with plain := w :: d.plain }, .nothing)

/-- The draft after the words of a command line, and the words behind `--`. -/
def words (d : Draft) : Expectation → List Text → Except UsageError (Draft × List Text)
  | .document, [] => .error .missingDocument
  | _, [] => .ok (d, [])
  | .document, w :: ws => words { d with inlined := some w } .nothing ws
  | expected, w :: ws =>
    if expected = .configFile ∧ w.head? ≠ some '-' then
      words { d with config := .file w } .nothing ws
    else if w = ['-', '-'] then .ok (d, ws)
    else
      match d.word w with
      | .error e => .error e
      | .ok (d', expected') => words d' expected' ws

/-- The request that a draft makes. Without an inline document the first plain word names the
document, and a dash stands for the standard input. -/
def request (d : Draft) (behind : List Text) : Request :=
  match d.inlined, d.plain.reverse with
  | some document, plain => ⟨d.config, .inline document, plain ++ behind, d.debug⟩
  | none, [] => ⟨d.config, .standardInput, behind, d.debug⟩
  | none, ['-'] :: plain => ⟨d.config, .standardInput, plain ++ behind, d.debug⟩
  | none, path :: plain => ⟨d.config, .file path, plain ++ behind, d.debug⟩

end Draft

/-- The request that the words of a command line make. -/
def parse (ws : List Text) : Except UsageError Request :=
  (Draft.empty.words .nothing ws).map fun (d, behind) => d.request behind

end Stencil.CommandLine
