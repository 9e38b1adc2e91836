import ParserGen.Calculator.Command
import ParserGen.CommandLine.Generator

/-!
# The commands

The program is the calculator if it is called `calc`, and the generator otherwise.
-/

namespace ParserGen

/-- The cause of an error of the system. -/
def FileError.ofSystem : IO.Error → FileError
  | .noFileOrDirectory .. => .notFound
  | .alreadyExists .. => .exists
  | .inappropriateType _ 21 _ => .isDirectory
  | .inappropriateType .. => .notDirectory
  | e => .other (toString e)

/-- Access to the files of the machine. -/
def accessFiles {α : Type} (action : IO α) : IO (Except FileError α) := do
  let result ← action.toBaseIO
  return result.mapError FileError.ofSystem

instance : FileSystem IO where
  canonicalize path := accessFiles do
    match ← (IO.FS.realPath path).toBaseIO with
    | .ok resolved => return resolved.toString
    | .error e =>
      -- An attempt to open the file tells a missing file from one that is no directory.
      let _ ← IO.FS.Handle.mk path .read
      throw e
  isDirectory path := do
    match ← (IO.FS.realPath path).toBaseIO with
    | .ok resolved => resolved.isDir
    | .error _ => return false
  makeDirectory path := accessFiles (IO.FS.createDir path)
  readFile path := accessFiles (IO.FS.readBinFile path)
  writeFile path contents := accessFiles (IO.FS.writeFile path contents)
  print text := IO.print text

namespace Calculator

/-- Evaluates the lines of the standard input as they come. -/
partial def answerLines (input : IO.FS.Stream) : IO UInt32 := do
  match ← input.getLine.toBaseIO with
  | .error _ =>
    IO.eprint (Failure.report ⟨"failed to read stdin", [FileError.invalidText.message]⟩)
    return 1
  | .ok line =>
    if line.isEmpty then return 0
    let o := evaluateLine (chomp line)
    IO.print o.stdout
    IO.eprint o.stderr
    answerLines input

/-- The calculator on the streams of the machine. -/
def command : List String → IO UInt32
  | text :: _ => do
    let o := evaluateArgument text
    IO.print o.stdout
    IO.eprint o.stderr
    return o.code.toUInt32
  | [] => do
    let input ← IO.getStdin
    answerLines input

end Calculator

/-- The generator on the files of the machine. -/
def Generator.command (program : String) (arguments : List String) : IO UInt32 := do
  let (code, errors) ← Generator.run program arguments
  IO.eprint errors
  return code.toUInt32

end ParserGen

/-- Runs the command by whose name the program is called. -/
def main (arguments : List String) : IO UInt32 := do
  let path ← IO.appPath
  let program := path.fileName.getD "parsergen"
  if program == "calc" then ParserGen.Calculator.command arguments
  else ParserGen.Generator.command program arguments
