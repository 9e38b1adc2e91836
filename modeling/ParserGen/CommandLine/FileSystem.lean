import ParserGen.CommandLine.Path
import ParserGen.GrammarFile.Basic

/-!
# Access to files

What the command needs of a file system. It is run on the files of the machine or on a `FileTree`.
-/

namespace ParserGen

/-- Computations with access to files and to the standard output. -/
class FileSystem (m : Type → Type) where
  /-- The path from the root to an existing file or directory. -/
  canonicalize : String → m (Except FileError String)
  isDirectory : String → m Bool
  /-- Makes a directory in an existing directory. -/
  makeDirectory : String → m (Except FileError Unit)
  readFile : String → m (Except FileError ByteArray)
  /-- Makes a file or replaces its contents. -/
  writeFile : String → String → m (Except FileError Unit)
  print : String → m Unit

namespace FileSystem

variable {m : Type → Type} [Monad m] [FileSystem m]

/-- Makes a directory unless it is there. -/
def ensureDirectory (path : String) : m (Except FileError Unit) := do
  match ← makeDirectory path with
  | .ok _ => return .ok ()
  | .error e => return if ← isDirectory path then .ok () else .error e

/-- Makes the first of some directories, each of which lies in the next one. One that lacks the
directory it lies in is tried again after that one. -/
def makeNested : List String → m (Except FileError Unit)
  | [] => return .ok ()
  | path :: above => do
    match ← ensureDirectory path with
    | .error .notFound =>
      match ← makeNested above with
      | .ok _ => ensureDirectory path
      | .error e => return .error e
    | result => return result

/-- Makes a directory with all directories above it. -/
def createDirectories (path : String) : m (Except FileError Unit) :=
  if path.isEmpty then return .ok () else makeNested (path :: Path.above path)

end FileSystem

end ParserGen
