import Stencil.CommandLine
import Stencil.Config
import Stencil.Delivery
import Stencil.FileTree
import Stencil.Library
/-!
# The program

A run of the program reads its command line, a configuration and a document, evaluates the document
with the standard functions, and writes the render. It exits with 2 if there is nothing to evaluate,
with 1 if the evaluation fails, and with 0 otherwise. An error in the configuration is reported and
changes none of this.

What the program asks of its surroundings is a `Host`: the content of files and of the standard
input. The same `run` serves a file tree given as data and a real file system.
-/

namespace Stencil.Program

structure Host (m : Type → Type) where
  /-- The directory of the user's configuration, if there is one. -/
  configDirectory : Option Text
  read : Text → m (Except ReadError ByteArray)
  standardInput : m (Except ReadError ByteArray)
  seed : Nat

structure Exit where
  status : Nat
  terminal : Terminal
deriving DecidableEq, Repr

variable {m : Type → Type} [Monad m]

/-- The places where a configuration is looked for. -/
def configPaths (host : Host m) : List Text :=
  (host.configDirectory.map (· ++ "/tmacro.conf".toList)).toList ++ ["./tmacro.conf".toList]

/-- The first of some paths at which there is something, and what is read there. -/
def firstExisting (host : Host m) : List Text → m (Option (Text × Except ReadError ByteArray))
  | [] => pure none
  | path :: rest => do
    match ← host.read path with
    | .ok bytes => return some (path, .ok bytes)
    | .error e => if e.mayExist then return some (path, .error e) else firstExisting host rest

/-- The chosen configuration file and what is read in it, if there is one. -/
def configFile (host : Host m) :
    CommandLine.ConfigChoice → m (Option (Text × Except ReadError ByteArray))
  | .skip => pure none
  | .file path => do return some (path, ← host.read path)
  | .search => firstExisting host (configPaths host)

/-- The configuration in a file, and the complaints about it. An unreadable file counts as empty. -/
def configOf : Option (Text × Except ReadError ByteArray) → Config × List Text
  | none => (.default, [])
  | some (path, content) =>
    match content.bind decodeFile with
    | .error e =>
      (.default, [Terminal.complaint ("warning: ".toList ++ path ++ ": ".toList ++ e.message)])
    | .ok t =>
      let (config, errors) := Config.parse t
      (config, errors.map fun e => Terminal.complaint (path ++ ": ".toList ++ e.text.toList))

/-- The label of a source, which is the command that documents see. -/
def label : CommandLine.Source → Text
  | .standardInput => ['-']
  | .inline _ => ['-', 'c']
  | .file path => path

def document (host : Host m) : CommandLine.Source → m (Except ReadError Text)
  | .standardInput => do return (← host.standardInput).bind decodeStream
  | .inline t => pure (.ok t)
  | .file path => do return (← host.read path).bind decodeFile

def evaluator (config : Config) (invocation : Invocation) : Evaluator :=
  ⟨Library.registry, config.limits, config.requireEndElseIf, invocation⟩

/-- The evaluation of a document under a configuration, on a terminal. -/
def evaluateOn (config : Config) (invocation : Invocation) (source : Text) (t : Terminal) : Exit :=
  let (result, t') :=
    (evaluator config invocation).run Terminal.sink source (.inTimezone config.timezone) t
  ⟨if result.failed then 1 else 0, t'⟩

def runRequest (host : Host m) (r : CommandLine.Request) : m Exit := do
  let (config, complaints) := configOf (← configFile host r.config)
  let t := Terminal.empty.complain complaints
  match ← document host r.source with
  | .error e =>
    let message := label r.source ++ ": ".toList ++ e.message
    return ⟨2, t.complain [Terminal.complaint message]⟩
  | .ok source => return evaluateOn config ⟨label r.source, r.args, host.seed⟩ source t

def run (host : Host m) (words : List Text) : m Exit :=
  match CommandLine.parse words with
  | .error e =>
    pure ⟨2, Terminal.empty.complain [Terminal.complaint e.message, CommandLine.usageLine]⟩
  | .ok r => runRequest host r

/-- Everything that is left of the standard input. Nothing is left afterwards. -/
def takeInput : StateM ByteArray (Except ReadError ByteArray) :=
  modifyGet fun input => (.ok input, .empty)

/-- The surroundings in which all files are given as data and the standard input as a state. -/
def Host.ofTree (tree : FileTree) (configDirectory : Option Text) : Host (StateM ByteArray) where
  configDirectory := configDirectory
  read path :=
    match tree.read path with
    | .ok (.stored bytes) => pure (.ok bytes)
    | .ok .standardInput => takeInput
    | .error e => pure (.error e)
  standardInput := takeInput
  seed := 0

end Stencil.Program
