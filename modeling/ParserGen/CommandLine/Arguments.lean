import ParserGen.Decimal.Basic

/-!
# Arguments of the generator

The command takes the name of a grammar file and options. An option with a value takes it from the
rest of the same argument or from the next one. After `--` there are no options.
-/

namespace ParserGen

/-- What the command is asked to do. -/
structure Arguments where
  /-- The path of the grammar file. -/
  input : String
  /-- Write the annotated table instead of the one that can be loaded. -/
  debug : Bool
  /-- Draw the automaton. -/
  dfa : Bool
  /-- Draw only this state and its successors. -/
  state : Option Nat
  /-- The directory for the results, if it is not that of the grammar file. -/
  outputDir : Option String
deriving DecidableEq, Inhabited

/-- What ends the reading of arguments early. -/
inductive Interruption where
  /-- The arguments are no use of the command. -/
  | usage
  /-- Help was asked for, in its long or its short form. -/
  | help (long : Bool)
  | version
deriving DecidableEq, Inhabited

namespace Arguments

/-- An option without a value. -/
inductive Switch where
  | debug
  | dfa
  | help (long : Bool)
  | version
deriving DecidableEq, Inhabited

/-- An option with a value. -/
inductive Setting where
  | state
  | outputDir
deriving DecidableEq, Inhabited

/-- The option that a word or a letter stands for. -/
inductive Name where
  | switch (s : Switch)
  | setting (s : Setting)
deriving DecidableEq, Inhabited

/-- The options with a word. -/
def longName? : String → Option Name
  | "debug" => some (.switch .debug)
  | "dfa" => some (.switch .dfa)
  | "state" => some (.setting .state)
  | "output-dir" => some (.setting .outputDir)
  | "help" => some (.switch (.help true))
  | "version" => some (.switch .version)
  | _ => none

/-- The options with a letter. -/
def shortName? : Char → Option Name
  | 'D' => some (.switch .dfa)
  | 'o' => some (.setting .outputDir)
  | 'h' => some (.switch (.help false))
  | 'V' => some (.switch .version)
  | _ => none

/-- The arguments read so far. -/
structure Draft where
  input : Option String := none
  debug : Bool := false
  dfa : Bool := false
  state : Option Nat := none
  outputDir : Option String := none
  /-- The option that waits for its value. -/
  pending : Option Setting := none
  /-- There are no more options. -/
  operandsOnly : Bool := false
deriving DecidableEq, Inhabited

namespace Draft

/-- Takes the value of an option, which must not be given twice. -/
def set (d : Draft) (s : Setting) (value : String) : Except Interruption Draft :=
  let d := { d with pending := none }
  match s with
  | .state =>
    match d.state, Text.unsigned? UInt64.size value with
    | none, some n => .ok { d with state := some n }
    | _, _ => .error .usage
  | .outputDir =>
    if d.outputDir.isSome || value.isEmpty then .error .usage
    else .ok { d with outputDir := some value }

/-- Takes an option without a value, which must not be given twice. -/
def turnOn (d : Draft) : Switch → Except Interruption Draft
  | .debug => if d.debug then .error .usage else .ok { d with debug := true }
  | .dfa => if d.dfa then .error .usage else .ok { d with dfa := true }
  | .help long => .error (.help long)
  | .version => .error .version

/-- Takes the name of the grammar file. -/
def operand (d : Draft) (text : String) : Except Interruption Draft :=
  if d.pending.isSome || d.input.isSome || text.isEmpty then .error .usage
  else .ok { d with input := some text }

/-- Takes `--name` or `--name=value`. -/
def long (d : Draft) (body : List Char) : Except Interruption Draft :=
  let name := body.takeWhile (· != '=')
  match longName? (String.ofList name), body.drop name.length with
  | some (.switch s), [] => d.turnOn s
  | some (.setting s), [] => .ok { d with pending := some s }
  | some (.setting s), _ :: value => d.set s (String.ofList value)
  | _, _ => .error .usage

/-- Takes the letters after a dash. What follows the letter of an option with a value is the value,
which may have an equals sign before it. -/
def short (d : Draft) : List Char → Except Interruption Draft
  | [] => .ok d
  | c :: rest =>
    match shortName? c with
    | some (.switch s) => do
      let d ← d.turnOn s
      d.short rest
    | some (.setting s) =>
      match rest with
      | [] => .ok { d with pending := some s }
      | '=' :: value => d.set s (String.ofList value)
      | value => d.set s (String.ofList value)
    | none => .error .usage

/-- Takes one argument. A single dash is no option. -/
def take (d : Draft) (argument : String) : Except Interruption Draft :=
  if d.operandsOnly then d.operand argument
  else
    match argument.toList with
    | ['-', '-'] => .ok { d with operandsOnly := true }
    | '-' :: '-' :: body => if d.pending.isSome then .error .usage else d.long body
    | '-' :: c :: rest => if d.pending.isSome then .error .usage else d.short (c :: rest)
    | _ =>
      match d.pending with
      | some s => d.set s argument
      | none => d.operand argument

/-- The arguments, if none is missing. A state can be chosen only for a drawing. -/
def finish (d : Draft) : Except Interruption Arguments :=
  match d.input with
  | none => .error .usage
  | some input =>
    if d.pending.isSome || (d.state.isSome && !d.dfa) then .error .usage
    else .ok { input, debug := d.debug, dfa := d.dfa, state := d.state, outputDir := d.outputDir }

end Draft

/-- Reads the arguments of the command. -/
def parse (arguments : List String) : Except Interruption Arguments := do
  let d ← arguments.foldlM Draft.take ({} : Draft)
  d.finish

end Arguments

end ParserGen
