import ParserGen.Grammar.Symbol
import ParserGen.Text.Quoted

/-!
# Rules

A rule replaces the nonterminal on its left by the sequence of its components, and may carry a
callback that computes the value of a phrase from the values of its parts.
-/

namespace ParserGen

/-- A rule of a finished grammar. Rule `0` is the added start rule. -/
structure Rule (V : Type) where
  number : Nat
  /-- The name of the left side. -/
  name : String
  /-- The nonterminal on the left. -/
  left : Nat
  /-- The right side by name. -/
  components : List String
  /-- The right side by number. -/
  symbols : List Symbol
  /-- The priority given to the rule itself. -/
  precedence : Option Nat
  /-- How the value of the left side is computed. -/
  callback : Option (List V → V)

/-- The text of a right side: the components, or a comment if there are none. -/
def displayComponents : List String → String
  | [] => "/* empty */"
  | components => " ".intercalate components

/-- The text of a rule given by its two sides. -/
def displayRule (name : String) (components : List String) : String :=
  name ++ " -> " ++ displayComponents components

namespace Rule

variable {V : Type}

/-- The number of components. -/
def length (r : Rule V) : Nat :=
  r.components.length

/-- The rule as text. -/
def display (r : Rule V) : String :=
  displayRule r.name r.components

/-- The label of a rule's number. -/
def label (number : Nat) : String :=
  if number = 0 then "R#Start" else "R#" ++ padded number

/-- The fields of the rule. -/
def describe (r : Rule V) : String :=
  let precedence :=
    match r.precedence with
    | none => "None"
    | some p => "Some(" ++ toString p ++ ")"
  "Rule \x7b id: " ++ label r.number ++ ", name: " ++ Text.quote r.name ++
    ", components: " ++ Text.quoteList r.components ++ ", precedence: " ++ precedence ++
    ", callback: " ++ toString r.callback.isSome ++ " \x7d"

end Rule

end ParserGen
