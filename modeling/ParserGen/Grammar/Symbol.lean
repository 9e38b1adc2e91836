import ParserGen.IndexSet

/-!
# Symbols of a grammar

Terminals and nonterminals are numbered. The first two terminals are reserved: `$eof`, which ends
the input, and `$epsilon`, which stands in FIRST sets for the empty string. The first nonterminal is
the added start symbol `$start`.
-/

namespace ParserGen

/-- A terminal or nonterminal by its number. -/
inductive Symbol where
  | terminal (id : Nat)
  | nonterminal (id : Nat)
deriving DecidableEq, Inhabited

/-- A set of terminals. -/
abbrev TerminalSet := IndexSet

namespace Terminal

/-- The terminal that ends the input. -/
def eof : Nat := 0

/-- The pseudo-terminal that marks the empty string. -/
def epsilon : Nat := 1

/-- The name of `epsilon`. -/
def epsilonName : String := "$epsilon"

/-- The number of reserved terminals. -/
def reserved : Nat := 2

end Terminal

namespace Nonterminal

/-- The added start symbol. -/
def start : Nat := 0

/-- The name of `start`. -/
def startName : String := "$start"

end Nonterminal

/-- A number with at least three digits. -/
def padded (n : Nat) : String :=
  let digits := toString n
  String.ofList (List.replicate (3 - digits.length) '0') ++ digits

/-- The label of a terminal's number. -/
def Terminal.label (id : Nat) : String :=
  if id = Terminal.eof then "T#EOF"
  else if id = Terminal.epsilon then "T#Epsilon"
  else "T#" ++ padded id

/-- The label of a nonterminal's number. -/
def Nonterminal.label (id : Nat) : String :=
  if id = Nonterminal.start then "N#Start" else "N#" ++ padded id

/-- The label of a symbol's number. -/
def Symbol.label : Symbol → String
  | .terminal t => Terminal.label t
  | .nonterminal n => Nonterminal.label n

end ParserGen
