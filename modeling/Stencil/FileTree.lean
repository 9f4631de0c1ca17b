import Stencil.Text.Offset
import Stencil.Text.Split
import Stencil.Text.Utf8
/-!
# Files

A file is read by its path. `FileTree` is a file system given as data: its directories, and its
files with their contents. `read` follows a path through it name by name and gives a reason when
it fails; `addFile` puts a file at a path and makes the directories on the way.

A place is the row of names that leads from the root to a directory or a file, without the names
`.` and `..`. The directories of a tree contain with each directory those around it.
-/

namespace Stencil

inductive ReadError where
  | notFound
  | notDirectory
  | isDirectory
  | nameTooLong
  | denied
  | invalidText
  | faultyText (fault : Utf8.Fault)
  | other (reason : Text)
deriving DecidableEq, Repr

def ReadError.message : ReadError → Text
  | notFound => "No such file or directory (os error 2)".toList
  | notDirectory => "Not a directory (os error 20)".toList
  | isDirectory => "Is a directory (os error 21)".toList
  | nameTooLong => "File name too long (os error 36)".toList
  | denied => "Permission denied (os error 13)".toList
  | invalidText => "stream did not contain valid UTF-8".toList
  | faultyText fault => fault.message
  | other reason => reason

/-- Whether the error leaves open that there is something at the path. -/
def ReadError.mayExist : ReadError → Bool
  | notFound | notDirectory | nameTooLong => false
  | _ => true

/-- The text in a file. -/
def decodeFile (bytes : ByteArray) : Except ReadError Text :=
  match Utf8.decode? bytes with
  | some t => .ok t
  | none => .error .invalidText

/-- The text that a stream brought. Here the error says where the fault is. -/
def decodeStream (bytes : ByteArray) : Except ReadError Text :=
  match Utf8.decode? bytes with
  | some t => .ok t
  | none => .error (((Utf8.firstFault? bytes).map .faultyText).getD .invalidText)

/-- What there is to read in a file. -/
inductive FileContent where
  | stored (bytes : ByteArray)
  /-- What is left of the standard input. -/
  | standardInput

structure FileTree where
  /-- The place from which relative paths lead. -/
  workingDirectory : List Text
  directories : List (List Text)
  files : List (List Text × FileContent)

namespace FileTree

/-- The bytes that a name may have at most. -/
def nameLimit : Nat := 255

/-- The bytes that a path may have at most. -/
def pathLimit : Nat := 4095

def names (path : Text) : List Text := Text.split ['/'] path

/-- The place that a name in a directory stands for. The root contains itself as `..`. -/
def enter (place : List Text) (name : Text) : List Text :=
  if name.isEmpty || name == ['.'] then place
  else if name == ['.', '.'] then place.dropLast
  else place ++ [name]

/-- The place from which a path leads. -/
def start (t : FileTree) (path : Text) : List Text :=
  if path.head? = some '/' then [] else t.workingDirectory

def hasDirectory (t : FileTree) (place : List Text) : Bool := t.directories.contains place

/-! ### Reading -/

/-- What is read at the end of the names, starting in the directory at a place. -/
def follow (t : FileTree) (place : List Text) : List Text → Except ReadError FileContent
  | [] => .error .isDirectory
  | name :: rest =>
    let here := enter place name
    if nameLimit < name.byteLength then .error .nameTooLong
    else if t.hasDirectory here then follow t here rest
    else
      match t.files.lookup here with
      | none => .error .notFound
      | some content => if rest.isEmpty then .ok content else .error .notDirectory

def read (t : FileTree) (path : Text) : Except ReadError FileContent :=
  if path.isEmpty then .error .notFound
  else if pathLimit < path.byteLength then .error .nameTooLong
  else t.follow (t.start path) (names path)

/-! ### Building -/

/-- The tree with a directory wherever the names lead, and the place of the last one. -/
def makeDirectories (t : FileTree) (place : List Text) : List Text → FileTree × List Text
  | [] => (t, place)
  | name :: rest =>
    let here := enter place name
    let directories := if t.hasDirectory here then t.directories else here :: t.directories
    makeDirectories { t with directories } here rest

/-- The tree with a file at a path. A file that was there is replaced. -/
def addFile (t : FileTree) (path : Text) (content : FileContent) : FileTree :=
  let (t, place) := t.makeDirectories (t.start path) (names path).dropLast
  { t with files := (enter place ((names path).getLastD []), content) :: t.files }

/-- Directories that every root has. -/
def rootDirectories : List Text :=
  ["bin", "boot", "dev", "etc", "home", "lib", "media", "mnt", "opt", "proc", "root", "run", "sbin",
    "srv", "sys", "tmp", "usr", "var"].map String.toList

/-- Files that every file system has: the null device, which is empty, and the standard input. -/
def devices : List (Text × FileContent) :=
  [("/dev/null".toList, .stored .empty), ("/dev/stdin".toList, .standardInput),
    ("/dev/fd/0".toList, .standardInput), ("/proc/self/fd/0".toList, .standardInput)]

def addFiles (t : FileTree) (files : List (Text × FileContent)) : FileTree :=
  files.foldl (fun t f => t.addFile f.1 f.2) t

/-- The tree with an empty working directory. -/
def empty (workingDirectory : Text) : FileTree :=
  let root : FileTree := ⟨[], [] :: rootDirectories.map fun name => [name], []⟩
  let (t, place) := (root.addFiles devices).makeDirectories [] (names workingDirectory)
  { t with workingDirectory := place }

/-- The tree of files given by their paths, of which relative ones lead from the working
directory. -/
def ofFiles (workingDirectory : Text) (files : List (Text × ByteArray)) : FileTree :=
  (empty workingDirectory).addFiles (files.map fun f => (f.1, .stored f.2))

end FileTree

end Stencil
