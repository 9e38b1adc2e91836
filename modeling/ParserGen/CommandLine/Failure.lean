/-!
# Failures of commands

A failure says what could not be done and lists its causes, each of which is the cause of the one
before it.
-/

namespace ParserGen

/-- What could not be done, and why. -/
structure Failure where
  message : String
  causes : List String
deriving DecidableEq, Inhabited

/-- What a command leaves behind, its files apart. -/
structure Outcome where
  /-- The exit code. -/
  code : Nat
  stdout : String
  stderr : String
deriving DecidableEq, Inhabited

namespace Failure

/-- A failure without a cause. -/
def ofMessage (message : String) : Failure :=
  ⟨message, []⟩

/-- What could not be done because of another failure. -/
def within (context : String) (f : Failure) : Failure :=
  ⟨context, f.message :: f.causes⟩

/-- The messages of a failure and its causes. -/
def chain (f : Failure) : List String :=
  f.message :: f.causes

/-- The failure on one line, unless a message has several. -/
def brief (f : Failure) : String :=
  ": ".intercalate f.chain

/-- A text whose first line starts with `first` and whose other lines start with `others`. -/
def hang (first others text : String) : String :=
  first ++ ("\n" ++ others).intercalate (text.splitOn "\n")

/-- A text at the right of a number of columns. -/
def alignRight (width : Nat) (text : String) : String :=
  String.ofList (List.replicate (width - text.length) ' ') ++ text

/-- The causes below a heading. Several causes are numbered. -/
def displayCauses : List String → String
  | [] => ""
  | [cause] => "\n\nCaused by:\n" ++ hang "    " "    " cause
  | causes =>
    "\n\nCaused by:\n" ++ "\n".intercalate (causes.mapIdx fun i cause =>
      hang (alignRight 5 (toString i) ++ ": ") "       " cause)

/-- The failure with its causes. -/
def report (f : Failure) : String :=
  "Error: " ++ f.message ++ displayCauses f.causes ++ "\n"

end Failure

end ParserGen
