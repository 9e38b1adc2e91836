import ParserGen.Calculator.Parser
import ParserGen.CommandLine.Failure
import ParserGen.Text.CharClass

/-!
# The calculator

The command evaluates its first argument, or every line of its input if there is none.
-/

namespace ParserGen.Calculator

/-- What is printed for an expression. -/
def report (e : Expr) : String :=
  "parsed: " ++ e.display ++ "\nvalue: " ++ (FloatValue.ofFloat e.eval).display ++ "\n"

/-- Reads and evaluates an expression. -/
def evaluate (text : String) : Except Failure String :=
  match parse text with
  | .ok e => .ok (report e)
  | .error e => .error (Failure.within "parser error" (.ofMessage e.message))

/-- Evaluates an argument. -/
def evaluateArgument (text : String) : Outcome :=
  match evaluate text with
  | .ok printed => { code := 0, stdout := printed, stderr := "" }
  | .error f => { code := 1, stdout := "", stderr := f.report }

/-- Evaluates a line of the input, unless it is blank. A failure is reported and the next line is
read. -/
def evaluateLine (line : String) : Outcome :=
  if (Text.trim line).isEmpty then { code := 0, stdout := "", stderr := "" }
  else
    match evaluate line with
    | .ok printed => { code := 0, stdout := printed, stderr := "" }
    | .error f => { code := 0, stdout := "", stderr := "error: " ++ f.brief ++ "\n" }

/-- A line without the characters that end it: a line feed, and a carriage return before it. -/
def chomp (line : String) : String :=
  match line.toList.reverse with
  | '\n' :: '\r' :: rest => String.ofList rest.reverse
  | '\n' :: rest => String.ofList rest.reverse
  | _ => line

/-- The lines of a text with the line feeds that end them. -/
def linesOf (text : String) : List String :=
  let pieces := text.splitOn "\n"
  pieces.dropLast.map (· ++ "\n") ++ [pieces.getLastD ""]

/-- Evaluates every line of a text. -/
def evaluateLines (text : String) : Outcome :=
  let outcomes := (linesOf text).map fun line => evaluateLine (chomp line)
  { code := 0
    stdout := String.join (outcomes.map (·.stdout))
    stderr := String.join (outcomes.map (·.stderr)) }

/-- Runs the command. -/
def run (arguments : List String) (input : String) : Outcome :=
  match arguments with
  | text :: _ => evaluateArgument text
  | [] => evaluateLines input

end ParserGen.Calculator
