import NearMemory.CommandLine.Run

/-!
# The program

The command line on real files.
-/

namespace NearMemory

/-- The cause of a failed file access. -/
def FileError.ofIOError : IO.Error → FileError
  | .noFileOrDirectory .. => .notFound
  | e => .other (toString e)

/-- A file access with its failure as a value. -/
def attempt {α : Type} (access : IO α) : IO (Except FileError α) :=
  tryCatch (.ok <$> access) fun e => return .error (.ofIOError e)

instance : FileSystem IO where
  read path := attempt (IO.FS.readBinFile path)
  write path text := attempt (IO.FS.writeFile path text)

end NearMemory

/-- Run the command line. -/
def main (arguments : List String) : IO UInt32 := do
  let outcome ← NearMemory.runArguments arguments
  IO.print outcome.stdout
  IO.eprint outcome.stderr
  return outcome.code.toUInt32
