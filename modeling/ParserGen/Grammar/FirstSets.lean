import ParserGen.Grammar.Basic

/-!
# FIRST sets

The terminals with which a phrase of a nonterminal can begin; `$epsilon` is among them exactly when
the empty string is such a phrase. The sets are the least ones closed under the rules, found by going
through all rules until no set grows.
-/

namespace ParserGen

/-- A set of terminals for each nonterminal. -/
structure FirstSets where
  sets : Array TerminalSet
deriving DecidableEq

namespace FirstSets

variable {V : Type}

/-- The set of a nonterminal. -/
def ofNonterminal (f : FirstSets) (n : Nat) : TerminalSet :=
  f.sets.getD n ∅

/-- The set of a symbol. -/
def ofSymbol (f : FirstSets) : Symbol → TerminalSet
  | .terminal t => .singleton t
  | .nonterminal n => f.ofNonterminal n

/-- The set of a sequence: `$epsilon` is in it exactly when it is in the set of every symbol. -/
def ofSequence (f : FirstSets) : List Symbol → TerminalSet
  | [] => .singleton Terminal.epsilon
  | .terminal t :: _ => .singleton t
  | .nonterminal n :: rest =>
    let first := f.ofNonterminal n
    if first.contains Terminal.epsilon then
      (first.erase Terminal.epsilon).union (f.ofSequence rest)
    else first

/-- Adds what one rule contributes to the set of its left side. -/
def visit (f : FirstSets) (r : Rule V) : FirstSets :=
  ⟨f.sets.modify r.left (·.union (f.ofSequence r.symbols))⟩

/-- Visits every rule once. -/
def round (g : Grammar V) (f : FirstSets) : FirstSets :=
  g.rules.toList.foldl visit f

/-- Repeats rounds until one changes nothing. -/
def saturate (g : Grammar V) : Nat → FirstSets → FirstSets
  | 0, f => f
  | fuel + 1, f =>
    let next := round g f
    if next = f then f else saturate g fuel next

/-- The FIRST sets of a grammar. Every round but the last adds a terminal to some set, which bounds
their number. -/
def compute (g : Grammar V) : FirstSets :=
  saturate g (g.nonterminals.size * g.terminals.size + 1)
    ⟨Array.replicate g.nonterminals.size ∅⟩

end FirstSets

end ParserGen
