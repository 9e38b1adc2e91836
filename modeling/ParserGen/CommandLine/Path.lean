/-!
# Paths

A path names a file or directory by the names on the way to it, with slashes between them. It starts
at the root if its first character is a slash. The names `.` and `..` stand for the directory reached
so far and for the one above it.
-/

namespace ParserGen.Path

/-- Whether a path starts at the root. -/
def isAbsolute (path : String) : Bool :=
  path.toList.head? == some '/'

/-- Whether a path ends in a slash, so that it must lead to a directory. -/
def endsInSlash (path : String) : Bool :=
  path.toList.getLast? == some '/'

/-- The names in a path. -/
def names (path : String) : List String :=
  ((path.toList.splitOn '/').filter fun name => !name.isEmpty).map String.ofList

/-- The names in a path without those that change nothing: `.` counts only at the beginning of a path
that does not start at the root. -/
def essentialNames (path : String) : List String :=
  match names path with
  | [] => []
  | first :: rest =>
    let rest := rest.filter (· != ".")
    if first == "." && isAbsolute path then rest else first :: rest

/-- The path made of names. -/
def ofNames (absolute : Bool) (names : List String) : String :=
  (if absolute then "/" else "") ++ "/".intercalate names

/-- The path without its last name. The root and the empty path have none. -/
def parent? (path : String) : Option String :=
  match essentialNames path with
  | [] => none
  | names => some (ofNames (isAbsolute path) names.dropLast)

/-- The path to a name in a directory. -/
def join (directory name : String) : String :=
  if directory.isEmpty || endsInSlash directory then directory ++ name
  else directory ++ "/" ++ name

/-- The paths of the directories above a path, the nearest one first, without the root and the
empty path. -/
def above (path : String) : List String :=
  let names := essentialNames path
  ((List.range names.length).drop 1).reverse.map fun n =>
    ofNames (isAbsolute path) (names.take n)

end ParserGen.Path
