import ParserGen.Automaton.Lookahead

/-!
# The automaton

The states of a grammar with the lookaheads of their items and the transitions between them.
-/

namespace ParserGen

/-- A state of the automaton. -/
structure State where
  /-- The items with their lookaheads, those of the kernel first. -/
  items : List (Item × TerminalSet)
  /-- The number of items of the kernel. -/
  kernelSize : Nat
  /-- The state that each symbol leads to. -/
  edges : List (Symbol × Nat)
deriving DecidableEq, Inhabited

namespace State

/-- The items with which the state is entered. -/
def kernel (s : State) : List (Item × TerminalSet) :=
  s.items.take s.kernelSize

/-- The lookahead of an item, if the state has it. -/
def lookahead? (s : State) (i : Item) : Option TerminalSet :=
  s.items.lookup i

end State

/-- The states of a grammar by number; the first is the one in which a parse begins. -/
structure Automaton where
  states : Array State
deriving DecidableEq, Inhabited

namespace Automaton

/-- The number of states. -/
def size (a : Automaton) : Nat :=
  a.states.size

/-- The state that a symbol leads to. -/
def transition? (a : Automaton) (source : Nat) (x : Symbol) : Option Nat := do
  let s ← a.states[source]?
  s.edges.lookup x

/-- All transitions, by source and then in the order of the edges. -/
def transitions (a : Automaton) : List (Nat × Symbol × Nat) :=
  (a.states.toList.mapIdx fun n s => s.edges.map fun e => (n, e.1, e.2)).flatten

end Automaton

/-- The automaton of a grammar. -/
def Grammar.automaton {V : Type} (g : Grammar V) : Automaton :=
  let states := g.collection
  let complete (s : CoreState) (items : List (Item × TerminalSet)) : State :=
    { items, kernelSize := s.kernel.length, edges := s.edges }
  ⟨(List.zipWith complete states (g.lookaheads states)).toArray⟩

end ParserGen
