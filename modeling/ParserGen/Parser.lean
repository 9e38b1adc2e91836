import ParserGen.Engine
import ParserGen.Table.Synthesis

/-!
# Parsers

A grammar together with its parse table reads a stream of tokens and computes the value of the whole
input.
-/

namespace ParserGen

namespace Grammar

variable {V : Type} [Inhabited V]

/-- The value of a rule's left side: the callback decides; without one it is the value of the first
component, and the default value if there is none. -/
def reduce (g : Grammar V) (rule : Nat) (args : List V) : V :=
  match (g.rules[rule]?).bind (·.callback) with
  | some callback => callback args
  | none => args.headD default

/-- The rules of a grammar as the engine needs them. -/
def reductions (g : Grammar V) : Reductions V where
  lhs rule := (g.rules[rule]?).map (·.name)
  arity rule := (g.rules[rule]?).map (·.length)
  reduce := g.reduce

end Grammar

/-- A grammar with a parse table. -/
structure Parser (V : Type) where
  grammar : Grammar V
  table : ParseTable

namespace Parser

variable {V : Type}

/-- The parser of a grammar, unless the grammar has an open conflict. -/
def ofGrammar (grammar : Grammar V) : Except UnresolvedConflict (Parser V) :=
  grammar.analyze.outcome.map fun s => { grammar, table := s.table }

/-- The engine of a parser. -/
def engine [Inhabited V] (p : Parser V) (ofToken : Token → V) : Engine V :=
  { table := p.table, reductions := p.grammar.reductions, ofToken }

/-- Parses a stream in at most `fuel` steps. -/
def parse? [Inhabited V] (p : Parser V) (ofToken : Token → V) (fuel : Nat) (stream : TokenStream) :
    Option (Except ParseError V × Machine V) :=
  (p.engine ofToken).run fuel (.initial stream)

end Parser

end ParserGen
