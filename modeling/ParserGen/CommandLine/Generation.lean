import ParserGen.Automaton.Dot
import ParserGen.CommandLine.Arguments
import ParserGen.CommandLine.Failure
import ParserGen.Table.Json
import ParserGen.Table.Listing
import ParserGen.Table.Synthesis

/-!
# Results of the generator

What the command prints and writes for a grammar, and how it ends. The results are computed before
the first of them is written.
-/

namespace ParserGen

/-- The results for a grammar. -/
structure Generation where
  /-- The lines to print. -/
  lines : List String
  /-- The names and contents of the files to write, in this order. -/
  files : List (String × String)
  /-- How the command fails after that. -/
  failure : Option Failure
deriving DecidableEq, Inhabited

namespace Generation

variable {V : Type} (a : Arguments) (g : Grammar V)

/-- The report of the settled conflicts. -/
def warnings (resolved : List ResolvedConflict) : List String :=
  resolved.map (fun c => "[warning] " ++ c.display g) ++
    match resolved.length with
    | 0 => []
    | 1 => ["1 conflict resolved."]
    | n => [toString n ++ " conflicts resolved."]

/-- The file with the table. -/
def tableFile (table : ParseTable) : String × String :=
  if a.debug then ("parse_table.txt", table.listing g) else ("parse_table.json", table.production)

/-- The file with the drawing of the automaton or of one state. -/
def drawing (automaton : Automaton) : Except Failure (String × String) :=
  match a.state with
  | none => .ok ("automaton.dot", Dot.automaton g automaton)
  | some n =>
    match Dot.state? g automaton n with
    | some dot => .ok ("state_" ++ toString n ++ ".dot", dot)
    | none => .error (.ofMessage ("the automaton has no state " ++ toString n))

/-- Adds the drawing if it is asked for. If there is none, that is how the command fails. -/
def addDrawing (automaton : Automaton) (r : Generation) : Generation :=
  if a.dfa then
    match drawing a g automaton with
    | .ok file => { r with files := r.files ++ [file] }
    | .error failure => { r with failure := some failure }
  else r

end Generation

/-- The results for a grammar: the table and the drawing, or the drawing and a failure if a conflict
is open. -/
def Grammar.generate {V : Type} (g : Grammar V) (a : Arguments) : Generation :=
  let analysis := g.analyze
  let results : Generation :=
    match analysis.outcome with
    | .ok s =>
      { lines := Generation.warnings g s.resolved.toList
        files := [Generation.tableFile a g s.table]
        failure := none }
    | .error c => { lines := [], files := [], failure := some (.ofMessage (c.message g)) }
  results.addDrawing a g analysis.automaton

end ParserGen
