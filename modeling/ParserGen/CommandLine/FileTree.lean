import ParserGen.CommandLine.FileSystem
import ParserGen.OrderedMap

/-!
# Trees of files

A file system in memory: every file and directory is reached from the root by a list of names. A
`Workspace` is such a tree with a current directory, from which paths start that do not start at the
root.
-/

namespace ParserGen

/-- A file or a directory. -/
inductive FileEntry where
  | file (contents : String)
  | directory
deriving DecidableEq, Inhabited

/-- The names on the way from the root. -/
abbrev Location := List String

/-- The files and directories below the root, in the order in which they were made. -/
structure FileTree where
  entries : OrderedMap Location FileEntry

namespace FileTree

/-- Nothing but the root. -/
def empty : FileTree := ⟨∅⟩

instance : EmptyCollection FileTree := ⟨empty⟩

/-- What is at a location. -/
def find? (t : FileTree) (l : Location) : Option FileEntry :=
  if l.isEmpty then some .directory else t.entries.find? l

/-- Puts a file or a directory at a location. -/
def put (t : FileTree) (l : Location) (e : FileEntry) : FileTree :=
  ⟨t.entries.insert l e⟩

/-- Whether a location can be entered. -/
def checkDirectory (t : FileTree) (l : Location) : Except FileError Unit :=
  match t.find? l with
  | some .directory => .ok ()
  | some (.file _) => .error .notDirectory
  | none => .error .notFound

/-- The location reached by entering one name after another. Nothing needs to be there. -/
def walk (t : FileTree) : Location → List String → Except FileError Location
  | l, [] => .ok l
  | l, name :: rest => do
    t.checkDirectory l
    if name = "." then t.walk l rest
    else if name = ".." then t.walk l.dropLast rest
    else t.walk (l ++ [name]) rest

/-- The files with the names on the way to them. -/
def files (t : FileTree) : List (Location × String) :=
  t.entries.entries.filterMap fun (l, e) =>
    match e with
    | .file contents => some (l, contents)
    | .directory => none

end FileTree

/-- A tree with a current directory and what has been printed. -/
structure Workspace where
  tree : FileTree
  current : Location
  printed : String

namespace Workspace

/-- Where a path starts. -/
def startOf (w : Workspace) (path : String) : Location :=
  if Path.isAbsolute path then [] else w.current

/-- The location of a path and what is there. -/
def resolve (w : Workspace) (path : String) : Except FileError (Location × FileEntry) := do
  let names := Path.names path ++ if Path.endsInSlash path then ["."] else []
  let l ← w.tree.walk (w.startOf path) names
  match w.tree.find? l with
  | some e => return (l, e)
  | none => .error .notFound

/-- The directory that a path leads through, and the last name of the path. -/
def splitLast (w : Workspace) (path : String) : Except FileError (Location × String) := do
  let names := Path.names path
  let l ← w.tree.walk (w.startOf path) names.dropLast
  w.tree.checkDirectory l
  return (l, names.getLastD ".")

/-- Whether a name is that of an entry of its own. -/
def isProper (name : String) : Bool :=
  name != "." && name != ".."

/-- Makes a directory. -/
def makeDirectory (w : Workspace) (path : String) : Except FileError Workspace := do
  let (l, name) ← w.splitLast path
  if isProper name && (w.tree.find? (l ++ [name])).isNone then
    return { w with tree := w.tree.put (l ++ [name]) .directory }
  else .error .exists

/-- Makes a file or replaces its contents. -/
def writeFile (w : Workspace) (path contents : String) : Except FileError Workspace := do
  let (l, name) ← w.splitLast path
  if isProper name && w.tree.find? (l ++ [name]) ≠ some .directory then
    return { w with tree := w.tree.put (l ++ [name]) (.file contents) }
  else .error .isDirectory

/-- The contents of a file. -/
def readFile (w : Workspace) (path : String) : Except FileError ByteArray := do
  let (_, e) ← w.resolve path
  match e with
  | .file contents => return contents.toUTF8
  | .directory => .error .isDirectory

/-- The path from the root. -/
def canonicalize (w : Workspace) (path : String) : Except FileError String := do
  let (l, _) ← w.resolve path
  return Path.ofNames true l

/-- Whether a path leads to a directory. -/
def isDirectory (w : Workspace) (path : String) : Bool :=
  match w.resolve path with
  | .ok (_, .directory) => true
  | _ => false

/-- Goes on with a changed workspace, unless the change failed. -/
def change (f : Workspace → Except FileError Workspace) : StateM Workspace (Except FileError Unit) :=
  fun w =>
    match f w with
    | .ok w => (.ok (), w)
    | .error e => (.error e, w)

instance : FileSystem (StateM Workspace) where
  canonicalize path := fun w => (w.canonicalize path, w)
  isDirectory path := fun w => (w.isDirectory path, w)
  makeDirectory path := change (·.makeDirectory path)
  readFile path := fun w => (w.readFile path, w)
  writeFile path contents := change (·.writeFile path contents)
  print text := fun w => ((), { w with printed := w.printed ++ text })

end Workspace

end ParserGen
