import ParserGen.Grammar.NameTable
import ParserGen.Grammar.Policy
import ParserGen.Grammar.Rule

/-!
# Grammars

A context-free grammar with numbered symbols and rules, operator declarations and a conflict
resolution policy.
-/

namespace ParserGen

/-- A grammar whose rules compute values of type `V`. -/
structure Grammar (V : Type) where
  /-- The rules; rule `0` is `$start → start symbol`. -/
  rules : Array (Rule V)
  terminals : NameTable
  nonterminals : NameTable
  /-- The numbers of each nonterminal's rules, ascending. -/
  groups : Array (List Nat)
  operators : OperatorTable
  /-- The nonterminal that derives the whole input. -/
  start : Nat
  resolution : Policy

namespace Grammar

variable {V : Type} (g : Grammar V)

/-- The numbers of the rules with a nonterminal on the left, ascending. -/
def alternatives (n : Nat) : List Nat :=
  g.groups.getD n []

/-- The right side of a rule, empty if there is no such rule. -/
def symbolsOf (rule : Nat) : List Symbol :=
  match g.rules[rule]? with
  | some r => r.symbols
  | none => []

/-- The number of components of a rule. -/
def ruleLength (rule : Nat) : Nat :=
  (g.symbolsOf rule).length

/-- The text of a rule. -/
def displayRule (rule : Nat) : String :=
  match g.rules[rule]? with
  | some r => r.display
  | none => ""

/-- The name of a terminal. -/
def terminalName (t : Nat) : String :=
  g.terminals.name t

/-- The name of a nonterminal. -/
def nonterminalName (n : Nat) : String :=
  g.nonterminals.name n

/-- The name of a symbol. -/
def symbolName : Symbol → String
  | .terminal t => g.terminalName t
  | .nonterminal n => g.nonterminalName n

/-- The symbol with a name: a nonterminal if there is one, else a terminal. -/
def symbolOf? (name : String) : Option Symbol :=
  match g.nonterminals.idOf? name with
  | some n => some (.nonterminal n)
  | none => (g.terminals.idOf? name).map .terminal

/-- The declaration of an operator. -/
def operator? (name : String) : Option Precedence :=
  g.operators.find? name

/-- The priority with which a rule competes: its own, else that of its rightmost component that is
an operator. -/
def effectivePrecedence (r : Rule V) : Option Nat :=
  match r.precedence with
  | some p => some p
  | none => (r.components.reverse.findSome? g.operator?).map (·.priority)

/-- The name of the start symbol. -/
def startName : String :=
  g.nonterminalName g.start

/-- The names of a set of terminals, in the order of their numbers. -/
def terminalNames (s : TerminalSet) : List String :=
  s.toList.map g.terminalName

/-- The whole grammar as text. -/
def display : String :=
  let terminal (name : String) :=
    match g.operator? name with
    | some op =>
      "- " ++ name ++ " (" ++ op.assoc.display ++ ", " ++ toString op.priority ++ ")\n"
    | none => "- " ++ name ++ "\n"
  let rule (r : Rule V) :=
    let precedence :=
      match r.precedence with
      | some p => " %prec " ++ toString p
      | none => ""
    "- " ++ toString r.number ++ ". " ++ r.display ++ precedence ++ "\n"
  "## terminals:\n" ++ String.join ((g.terminals.toList.drop Terminal.reserved).map terminal) ++
  "## nonterminals:\n" ++ String.join (g.nonterminals.toList.map fun n => "- " ++ n ++ "\n") ++
  "## rules:\n" ++ String.join (g.rules.toList.map rule) ++
  "## start: " ++ g.startName ++ "\n" ++
  "## resolve: " ++ g.resolution.display ++ "\n"

end Grammar

end ParserGen
