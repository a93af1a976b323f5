/-!
# Files

The command line reads and writes files. What it needs of a file system is a class, so that it can
run on real files as well as on a directory held in memory.

## Main definitions

* `FileError` — why a file cannot be read or written
* `FileSystem` — reading and writing whole files
* `readText` — the text of a file
* `Directory` — a directory held in memory, which is a `FileSystem`
-/

namespace NearMemory

/-- Why a file cannot be read or written. -/
inductive FileError where
  /-- There is no such file, or no such directory. -/
  | notFound
  /-- The file is not encoded as text. -/
  | notText
  /-- Anything else, in words. -/
  | other (reason : String)
  deriving DecidableEq, Repr

/-- Why a file cannot be read or written, in words. -/
def FileError.message : FileError → String
  | .notFound => "No such file or directory (os error 2)"
  | .notText => "stream did not contain valid UTF-8"
  | .other reason => reason

/-- Reading and writing whole files. -/
class FileSystem (m : Type → Type) where
  /-- The bytes of a file. -/
  read : String → m (Except FileError ByteArray)
  /-- Replace a file, or create it. -/
  write : String → String → m (Except FileError Unit)

/-- The text of bytes in UTF-8. -/
def textOfBytes (bytes : ByteArray) : Except FileError String :=
  match String.fromUTF8? bytes with
  | some text => .ok text
  | none => .error .notText

/-- The text of a file. -/
def readText {m : Type → Type} [Monad m] [FileSystem m] (path : String) :
    m (Except FileError String) :=
  return (← FileSystem.read path) >>= textOfBytes

/-! ### A directory in memory -/

/-- The parts of a path. Empty parts and the part `.` lead nowhere. -/
def pathParts (path : String) : List String :=
  (path.splitOn "/").filter fun part => part != "" && part != "."

/-- A directory held in memory: the files in it, by the parts of their paths. -/
structure Directory where
  /-- The files, each path once. -/
  files : List (List String × ByteArray) := []

namespace Directory

/-- The file at a path. -/
def find? (d : Directory) (parts : List String) : Option ByteArray := d.files.lookup parts

/-- Whether the directory that a file would lie in is there: some file lies in it or below it. -/
def hasParent (d : Directory) (parts : List String) : Bool :=
  parts.dropLast.isEmpty || d.files.any fun (other, _) => parts.dropLast.isPrefixOf other.dropLast

/-- Replace a file, or create it. -/
def insert (d : Directory) (parts : List String) (bytes : ByteArray) : Directory :=
  if d.files.any (·.1 == parts) then
    ⟨d.files.map fun (other, old) => (other, if other == parts then bytes else old)⟩
  else ⟨d.files ++ [(parts, bytes)]⟩

/-- The bytes of the file at a path. -/
def read (d : Directory) (path : String) : Except FileError ByteArray :=
  match d.find? (pathParts path) with
  | some bytes => .ok bytes
  | none => .error .notFound

/-- The directory with a text written to a path. -/
def write (d : Directory) (path text : String) : Except FileError Directory :=
  let parts := pathParts path
  if !parts.isEmpty && d.hasParent parts then .ok (d.insert parts text.toUTF8)
  else .error .notFound

instance : FileSystem (StateM Directory) where
  read path := do return (← get).read path
  write path text := do
    match (← get).write path text with
    | .ok d => set d; return .ok ()
    | .error e => return .error e

end Directory

end NearMemory
