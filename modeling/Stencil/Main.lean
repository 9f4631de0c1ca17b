import Stencil.Program
/-!
# The executable

Runs the program in the real surroundings: the file system, the standard streams and the
environment.
-/

namespace Stencil.Main

/-- The reason of a failed read. One kind of error covers both a directory in the place of a file
and a file in the place of a directory; its code tells them apart, as it does with a name that is
too long among the arguments that are not valid. -/
def readError : IO.Error → ReadError
  | .noFileOrDirectory .. => .notFound
  | .invalidArgument _ 36 _ => .nameTooLong
  | .inappropriateType _ code _ => if code = 21 then .isDirectory else .notDirectory
  | .permissionDenied .. => .denied
  | e => .other e.toString.toList

/-- What a read gives, or why it fails. -/
def attempt (read : IO ByteArray) : IO (Except ReadError ByteArray) := do
  try
    return .ok (← read)
  catch e =>
    return .error (readError e)

/-- The directory of the user's configuration. -/
def configDirectory : IO (Option Text) := do
  match ← IO.getEnv "XDG_CONFIG_HOME" with
  | some dir => return some (dir ++ "/tmacro").toList
  | none => return (← IO.getEnv "HOME").map fun home => (home ++ "/.config/tmacro").toList

def host : IO (Program.Host IO) := do
  return {
    configDirectory := ← configDirectory
    read := fun path => attempt (IO.FS.readBinFile path.string)
    standardInput := do attempt (← IO.getStdin).readBinToEnd
    seed := ← IO.rand 0 0xFFFFFFFF }

end Stencil.Main

def main (args : List String) : IO UInt32 := do
  let exit ← Stencil.Program.run (← Stencil.Main.host) (args.map String.toList)
  (← IO.getStderr).putStr exit.terminal.errors.string
  (← IO.getStdout).putStr exit.terminal.output.string
  return exit.status.toUInt32
