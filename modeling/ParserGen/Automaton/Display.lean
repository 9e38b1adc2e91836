import ParserGen.Automaton.Basic

/-!
# The automaton as text

A listing of the states with their items, lookaheads and transitions.
-/

namespace ParserGen

namespace Grammar

variable {V : Type} (g : Grammar V)

/-- The name on the left of a rule. -/
def leftName (rule : Nat) : String :=
  match g.rules[rule]? with
  | some r => r.name
  | none => ""

/-- The right side of a rule by name. -/
def componentsOf (rule : Nat) : List String :=
  match g.rules[rule]? with
  | some r => r.components
  | none => []

/-- An item with its lookahead. -/
def displayItem (i : Item) (lookahead : TerminalSet) : String :=
  let components := g.componentsOf i.rule
  let parts := components.take i.dot ++ "." :: components.drop i.dot
  g.leftName i.rule ++ " -> [" ++ String.join (parts.map (" " ++ ·)) ++ " ] \x7b " ++
    ", ".intercalate (g.terminalNames lookahead) ++ " \x7d"

/-- A state with its items; those of the kernel are starred. -/
def displayState (number : Nat) (s : State) : String :=
  let line (marker : String) (e : Item × TerminalSet) :=
    marker ++ " " ++ g.displayItem e.1 e.2 ++ "\n"
  "#### State " ++ toString number ++ "\n" ++
    String.join (s.kernel.map (line "*")) ++
    String.join ((s.items.drop s.kernelSize).map (line "-"))

end Grammar

/-- All states with their transitions, a blank line between two states. -/
def Automaton.display {V : Type} (g : Grammar V) (a : Automaton) : String :=
  let edge (e : Symbol × Nat) := "  --(" ++ g.symbolName e.1 ++ ")--> " ++ toString e.2 ++ "\n"
  "\n".intercalate (a.states.toList.mapIdx fun n s =>
    g.displayState n s ++ String.join (s.edges.map edge))

end ParserGen
