import ParserGen.Table.Basic
import ParserGen.Token.Stream

/-!
# The shift-reduce engine

A machine that reads a stream of tokens under the control of a table. Its stack holds, for each
symbol read so far, the value of the symbol and the state entered with it; beneath the stack lies
state `0`. One step shifts a token, reduces by a rule, or ends the run.

A run takes an amount of fuel: a table may ask for reductions without end.
-/

namespace ParserGen

/-- What the engine has to know about rules to reduce by them. -/
structure Reductions (V : Type) where
  /-- The name on the left of a rule. -/
  lhs : Nat → Option String
  /-- The number of components of a rule. -/
  arity : Nat → Option Nat
  /-- The value of a rule's left side from the values of its components. -/
  reduce : Nat → List V → V

/-- Why a parse fails. That there is no state to go on from is not among the reasons: state `0` lies
beneath the stack, and every other state is on it with its value, so that no step takes the last state
away. With states and values on two stacks apart this is one more reason, which never comes up. -/
inductive ParseError where
  /-- The token cannot stand here; the terminals that could are listed. -/
  | unexpectedToken (token : Token) (expected : List String)
  /-- The last token was shifted. -/
  | stream (error : StreamError)
  /-- The table reduces by a rule that there is none of. -/
  | unknownRule (rule : Nat)
  | missingGoto (state : Nat) (nonterminal : String)
  /-- The stack holds fewer values than the rule has components. -/
  | stackUnderflow (rule : Nat)
  /-- The table accepts before there is a value. -/
  | emptyValueStack
deriving DecidableEq, Inhabited

/-- The wording of the error. -/
def ParseError.message : ParseError → String
  | .unexpectedToken token expected =>
    "Unexpected " ++ token.display ++ " at line " ++ toString token.line ++
      ".\n\nExpected one of " ++ ", ".intercalate expected ++ "."
  | .stream e => "from token stream: " ++ e.message
  | .unknownRule rule => "the parse table refers to the unknown rule " ++ toString rule
  | .missingGoto state nonterminal =>
    "missing goto entry for `" ++ nonterminal ++ "' in state " ++ toString state
  | .stackUnderflow rule => "too few values on the stack to reduce by rule " ++ toString rule
  | .emptyValueStack => "empty value stack"

/-- The value of a symbol with the state entered with it. -/
structure Frame (V : Type) where
  state : Nat
  value : V

/-- The engine between two steps. -/
structure Machine (V : Type) where
  /-- The symbols read so far, the last one first. -/
  stack : List (Frame V)
  stream : TokenStream
  /-- The rules reduced by so far, the last one first. -/
  reduced : List Nat

namespace Machine

variable {V : Type}

/-- The machine before its first step. -/
def initial (stream : TokenStream) : Machine V :=
  { stack := [], stream, reduced := [] }

/-- The state on top of a stack. -/
def topState (stack : List (Frame V)) : Nat :=
  match stack with
  | [] => 0
  | f :: _ => f.state

end Machine

/-- What a step leads to. -/
inductive Step (V : Type) where
  /-- The machine goes on. -/
  | next (m : Machine V)
  /-- The run is over. -/
  | done (result : Except ParseError V) (m : Machine V)

/-- A table with the rules it speaks of and the values of tokens. -/
structure Engine (V : Type) where
  table : ParseTable
  reductions : Reductions V
  ofToken : Token → V

namespace Engine

variable {V : Type} (e : Engine V)

/-- Pushes the current token and moves on. -/
def shift (state : Nat) (m : Machine V) : Step V :=
  match m.stream.advance with
  | .ok stream =>
    .next { m with stack := ⟨state, e.ofToken m.stream.current⟩ :: m.stack, stream }
  | .error error => .done (.error (.stream error)) m

/-- Replaces the values of a rule's components by the value of its left side. -/
def reduce (rule : Nat) (m : Machine V) : Step V :=
  match e.reductions.lhs rule, e.reductions.arity rule with
  | some lhs, some arity =>
    if arity > m.stack.length then .done (.error (.stackUnderflow rule)) m
    else
      let m : Machine V := { m with reduced := rule :: m.reduced }
      let args := ((m.stack.take arity).map (·.value)).reverse
      let rest := m.stack.drop arity
      let top := Machine.topState rest
      match e.table.goto? top lhs with
      | some next => .next { m with stack := ⟨next, e.reductions.reduce rule args⟩ :: rest }
      | none => .done (.error (.missingGoto top lhs)) m
  | _, _ => .done (.error (.unknownRule rule)) m

/-- Ends the run with the value on top of the stack. -/
def accept (m : Machine V) : Step V :=
  match m.stack with
  | f :: _ => .done (.ok f.value) m
  | [] => .done (.error .emptyValueStack) m

/-- One step. -/
def step (m : Machine V) : Step V :=
  let state := Machine.topState m.stack
  match e.table.action? state m.stream.current.kind with
  | some (.shift next) => e.shift next m
  | some (.reduce rule) => e.reduce rule m
  | some .accept => accept m
  | none => .done (.error (.unexpectedToken m.stream.current (e.table.expected state))) m

/-- Runs the machine for at most `fuel` steps. There is no result if it has not come to an end. -/
def run : Nat → Machine V → Option (Except ParseError V × Machine V)
  | 0, _ => none
  | fuel + 1, m =>
    match e.step m with
    | .next m => run fuel m
    | .done result m => some (result, m)

end Engine

end ParserGen
