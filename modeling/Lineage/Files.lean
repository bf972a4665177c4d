/-!
# Files

What the library needs of a file system, as operations of a monad, and the ways in which they fail.
Paths are text, read from the working directory unless they start with a slash.
-/

namespace Lineage

/-- Why a file operation failed. -/
inductive FileError where
  | notFound
  | alreadyExists
  | notDirectory
  | isDirectory
  /-- A segment, or the path as a whole, is longer than the system takes. -/
  | nameTooLong
  /-- A path with the character that ends a path. -/
  | invalidName
  | other (reason : String)
deriving DecidableEq, Repr

def FileError.message : FileError → String
  | notFound => "No such file or directory (os error 2)"
  | alreadyExists => "File exists (os error 17)"
  | notDirectory => "Not a directory (os error 20)"
  | isDirectory => "Is a directory (os error 21)"
  | nameTooLong => "File name too long (os error 36)"
  | invalidName => "file name contained an unexpected NUL byte"
  | other reason => reason

/-- Whether a path can be given to a system at all. -/
def isPathText (path : String) : Bool := !path.toList.contains '\x00'

class Files (m : Type → Type) where
  read : String → m (Except FileError String)
  write : String → String → m (Except FileError Unit)
  /-- Makes a directory and those above it; one that is there already is no failure. -/
  createDirectories : String → m (Except FileError Unit)
  /-- Whether anything is at a path. -/
  isPresent : String → m Bool
  workingDirectory : m String

end Lineage
