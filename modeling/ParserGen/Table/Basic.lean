import ParserGen.OrderedMap
import ParserGen.Table.Action

/-!
# Parse tables

A table tells for each state what to do on each terminal, and for each state and nonterminal which
state follows a reduction to that nonterminal. Symbols are known by name, so that a table can be kept
apart from the grammar it was made for. Where names or states are listed, they are sorted first.
-/

namespace ParserGen

section Sorting

variable {α : Type} (lt : α → α → Bool)

/-- Puts an element before the first one that it must precede. -/
def insertSorted (a : α) : List α → List α
  | [] => [a]
  | b :: rest => if lt b a then b :: insertSorted a rest else a :: b :: rest

/-- The list in ascending order. Elements that the order does not tell apart keep their places. -/
def sortBy (l : List α) : List α :=
  l.foldr (insertSorted lt) []

end Sorting

/-- The actions and the successors after reductions, by state. -/
structure ParseTable where
  /-- For each state the encoded actions by terminal. -/
  action : OrderedMap Nat (OrderedMap String Int)
  /-- For each state the following states by nonterminal. -/
  goto : OrderedMap Nat (OrderedMap String Nat)
deriving DecidableEq, Inhabited

namespace ParseTable

/-- The action of a state on a terminal. -/
def action? (t : ParseTable) (state : Nat) (terminal : String) : Option Action := do
  let row ← t.action.find? state
  let raw ← row.find? terminal
  return Action.decode raw

/-- The state that follows a reduction to a nonterminal. -/
def goto? (t : ParseTable) (state : Nat) (nonterminal : String) : Option Nat := do
  let row ← t.goto.find? state
  row.find? nonterminal

/-- The terminals with an action in a state, by name. -/
def expected (t : ParseTable) (state : Nat) : List String :=
  match t.action.find? state with
  | some row => sortBy (fun a b => decide (a < b)) row.keys
  | none => []

/-- The number of states with a row of actions. -/
def size (t : ParseTable) : Nat :=
  t.action.size

end ParseTable

end ParserGen
