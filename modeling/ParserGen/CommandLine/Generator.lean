import ParserGen.CommandLine.FileSystem
import ParserGen.CommandLine.Generation
import ParserGen.CommandLine.Help
import ParserGen.GrammarFile.Lowering

/-!
# The generator

The command reads a grammar file and writes the parse table and, if asked to, a drawing of the
automaton.
-/

namespace ParserGen.Generator

variable {m : Type → Type} [Monad m] [FileSystem m]

/-- A failure of access to files while something is done. -/
def fileFailure (context : String) (e : FileError) : Failure :=
  ⟨context, [e.message]⟩

/-- A grammar file that cannot be used. -/
def grammarFailure (e : GrammarFile.Error) : Failure :=
  match e with
  | .file cause => fileFailure e.message cause
  | e => .ofMessage e.message

/-- Access to files that fails in words of its own. -/
def attempt {α : Type} (failure : FileError → Failure) (action : m (Except FileError α)) :
    ExceptT Failure m α :=
  ExceptT.mk do
    let result ← action
    return result.mapError failure

/-- Writes files to a directory up to the first failure. -/
def writeFiles (directory : String) : List (String × String) → ExceptT Failure m Unit
  | [] => return
  | (name, contents) :: rest => do
    let path := Path.join directory name
    attempt (fileFailure ("failed to write " ++ path)) (FileSystem.writeFile path contents)
    writeFiles directory rest

/-- Prints and writes the results for a grammar. -/
def deliver (directory : String) (r : Generation) : ExceptT Failure m Unit := do
  ExceptT.lift (FileSystem.print (String.join (r.lines.map fun line => line ++ "\n")))
  writeFiles directory r.files
  match r.failure with
  | some failure => throw failure
  | none => return

/-- Processes a grammar file. -/
def process (a : Arguments) : ExceptT Failure m Unit := do
  let input ← attempt (fileFailure "failed to canonicalize the input file name")
    (FileSystem.canonicalize a.input)
  let directory := a.outputDir.getD ((Path.parent? input).getD "")
  attempt (fileFailure ("failed to create " ++ directory)) (FileSystem.createDirectories directory)
  let contents ← ExceptT.lift (FileSystem.readFile input)
  match (Grammar.ofBytes contents : Except GrammarFile.Error (Grammar Unit)) with
  | .ok g => deliver directory (g.generate a)
  | .error e => throw (grammarFailure e)

/-- Runs the command, which is called by the name `program`. The result is the exit code and the text
for the standard error stream. -/
def run (program : String) (arguments : List String) : m (Nat × String) := do
  match Arguments.parse arguments with
  | .ok a =>
    match ← (process a).run with
    | .ok _ => return (0, "")
    | .error f => return (1, (f.within ("errored during processing " ++ a.input)).report)
  | .error .usage => return (2, Help.misuse program)
  | .error (.help long) => do
    FileSystem.print (if long then Help.long program else Help.short program)
    return (0, "")
  | .error .version => do
    FileSystem.print (Help.version program)
    return (0, "")

end ParserGen.Generator
