import ParserGen.Automaton.Collection
import ParserGen.Automaton.Flood
import ParserGen.Grammar.FirstSets

/-!
# Lookaheads

The lookahead of an item in a state is the set of terminals that may follow once the item's rule is
complete. It is found by flooding a graph whose nodes are the items of all states: an item passes its
lookahead to the item with the dot moved on and, if what stands behind the next symbol can be empty,
to the items that it opens; the items that it opens are given the terminals with which what stands
behind can begin; and the start item is given `$eof`.
-/

namespace ParserGen

namespace CoreState

/-- The place of an item in a state. -/
def position? (s : CoreState) (i : Item) : Option Nat :=
  s.items.idxOf? i

end CoreState

/-- The states with the number of the first node of each. -/
structure Layout where
  states : Array CoreState
  bases : Array Nat

namespace Layout

variable {V : Type} (g : Grammar V) (first : FirstSets) (l : Layout)

/-- Numbers the items of all states one after the other. -/
def ofStates (states : List CoreState) : Layout where
  states := states.toArray
  bases := (states.foldl (fun (bases, n) s => (bases.push n, n + s.items.length)) (#[], 0)).1

/-- The node of an item in a state. -/
def node? (state : Nat) (i : Item) : Option Nat := do
  let s ← l.states[state]?
  let base ← l.bases[state]?
  let position ← s.position? i
  return base + position

/-- The nodes of the items that an item opens in its state. -/
def openedNodes (state : Nat) (i : Item) : List Nat :=
  (g.openedRules i).filterMap fun rule => l.node? state ⟨rule, 0⟩

/-- The node of the item with the dot moved on. -/
def movedNode? (s : CoreState) (i : Item) : Option Nat := do
  let x ← g.symbolAfterDot i
  let target ← s.edges.lookup x
  l.node? target i.advance

/-- The nodes that an item of a state passes its lookahead on to. -/
def successors (state : Nat) (s : CoreState) (i : Item) : List Nat :=
  let opened :=
    if (first.ofSequence (g.symbolsBehind i)).contains Terminal.epsilon then
      l.openedNodes g state i
    else []
  opened ++ (l.movedNode? g s i).toList

/-- What an item of a state gives to the items that it opens. -/
def gifts (state : Nat) (i : Item) : List (Nat × TerminalSet) :=
  let following := (first.ofSequence (g.symbolsBehind i)).erase Terminal.epsilon
  (l.openedNodes g state i).map fun node => (node, following)

/-- The edges of the graph. -/
def edges : Array (List Nat) :=
  (l.states.toList.mapIdx fun n s => s.items.map (l.successors g first n s)).flatten.toArray

/-- What is given to the nodes: `$eof` to the start item, and what each item gives. -/
def given : List (Nat × TerminalSet) :=
  (0, .singleton Terminal.eof) ::
    (l.states.toList.mapIdx fun n s => s.items.flatMap (l.gifts g first n)).flatten

end Layout

/-- Cuts a list of values into pieces as long as the given ones. -/
def distribute {α β : Type} : List (List α) → List β → List (List (α × β))
  | [], _ => []
  | piece :: rest, values =>
    piece.zip values :: distribute rest (values.drop piece.length)

/-- The items of each state with their lookaheads. -/
def Grammar.lookaheads {V : Type} (g : Grammar V) (states : List CoreState) :
    List (List (Item × TerminalSet)) :=
  let first := FirstSets.compute g
  let layout := Layout.ofStates states
  distribute (states.map (·.items)) (flood (layout.edges g first) (layout.given g first)).toList

end ParserGen
