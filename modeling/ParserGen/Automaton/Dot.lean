import ParserGen.Automaton.Display

/-!
# The automaton as a drawing

The automaton, or one state with its successors, in the DOT language for drawing graphs. Inside a
label a quote and a backslash are preceded by a backslash, and a line ends in `\n`.
-/

namespace ParserGen

namespace Dot

variable {V : Type} (g : Grammar V)

/-- Puts a backslash before a character wherever it stands. -/
def shield (c : Char) (text : List Char) : List Char :=
  text.flatMap fun d => if d = c then ['\\', c] else [d]

/-- The text of a label: quotes and backslashes are preceded by a backslash. Those before the quotes must
not be taken for some of the text, so the backslashes come first. -/
def escape (s : String) : String :=
  String.ofList (shield '"' (shield '\\' s.toList))

/-- An item: the left side (left out for the start rule), the components with a bullet for the dot,
and the lookahead if the dot is at the end. -/
def item (i : Item) (lookahead : TerminalSet) : String :=
  let components := (g.componentsOf i.rule).map escape
  let left := if i.rule = 0 then "" else escape (g.leftName i.rule) ++ " &rarr; "
  let right := " ".intercalate (components.take i.dot ++ "&bull;" :: components.drop i.dot)
  let follow :=
    if g.isComplete i then
      " [" ++ " ".intercalate ((g.terminalNames lookahead).map escape) ++ "]"
    else ""
  left ++ right ++ follow

/-- A node statement with the given label. -/
def node (n : Nat) (label : String) : String :=
  "    " ++ toString n ++ " [label=\"" ++ label ++ "\"];\n"

/-- A state with its items. -/
def fullState (n : Nat) (s : State) : String :=
  node n ("State " ++ toString n ++ "\\n\\n" ++
    "\\n".intercalate (s.items.map fun e => item g e.1 e.2))

/-- A state without its items. -/
def briefState (n : Nat) : String :=
  node n ("State " ++ toString n)

/-- An edge statement. -/
def edge (source : Nat) (x : Symbol) (target : Nat) : String :=
  "    " ++ toString source ++ " -> " ++ toString target ++ " [label=\"" ++
    escape (g.symbolName x) ++ "\"];\n"

/-- A drawing with a name, node statements and edge statements. -/
def graph (name : String) (nodes edges : List String) : String :=
  "digraph " ++ name ++ " \x7b\n    rankdir=\"LR\";\n\n" ++ String.join nodes ++ "\n" ++
    String.join edges ++ "\x7d\n"

/-- The whole automaton. -/
def automaton (a : Automaton) : String :=
  graph "Automaton" (a.states.toList.mapIdx (fullState g))
    (a.transitions.map fun (source, x, target) => edge g source x target)

/-- One state, its successors and the transitions to them, if there is such a state. -/
def state? (a : Automaton) (n : Nat) : Option String :=
  match a.states[n]? with
  | none => none
  | some s =>
    let successors := (s.edges.map (·.2)).eraseDups.filter (· != n)
    some (graph ("State" ++ toString n) (fullState g n s :: successors.map briefState)
      (s.edges.map fun e => edge g n e.1 e.2))

end Dot

end ParserGen
