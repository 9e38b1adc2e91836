import ParserGen.WorkList

/-!
# Flooding a graph

Each node of a graph is given a set, and passes what it has on along its edges. Flooding computes
what has reached each node in the end: everything given to a node from which it can be reached.

A node waits in the work list while it holds something that it has not yet passed on. Every delivery
that is not in vain adds a member to the set of some node, so there are no more steps than nodes and
members together allow.
-/

namespace ParserGen

/-- A flood under way. -/
structure Flood where
  /-- What has reached each node. -/
  reached : Array IndexSet
  /-- What has reached each node and was not yet passed on. -/
  fresh : Array IndexSet
  /-- The nodes that have something to pass on. -/
  work : WorkList

namespace Flood

/-- A flood on `count` nodes before anything was given. -/
def initial (count : Nat) : Flood :=
  { reached := Array.replicate count ∅, fresh := Array.replicate count ∅, work := ∅ }

/-- Gives a set to a node. Members that reached it before are dropped. -/
def deliver (f : Flood) (node : Nat) (s : IndexSet) : Flood :=
  match f.reached[node]? with
  | none => f
  | some old =>
    let added := s.diff old
    if added.isEmpty then f
    else
      { reached := f.reached.modify node (·.union added)
        fresh := f.fresh.modify node (·.union added)
        work := (f.work.push node).2 }

/-- Lets waiting nodes pass on what they hold, for at most `fuel` of them. -/
def run (edges : Array (List Nat)) : Nat → Flood → Flood
  | 0, f => f
  | fuel + 1, f =>
    match f.work.pop with
    | none => f
    | some (node, work) =>
      let passed := f.fresh.getD node ∅
      let rest : Flood :=
        { reached := f.reached, fresh := f.fresh.setIfInBounds node ∅, work }
      run edges fuel ((edges.getD node []).foldl (fun f target => f.deliver target passed) rest)

/-- The number of steps that suffice on `count` nodes for the given sets. -/
def bound (count : Nat) (given : List (Nat × IndexSet)) : Nat :=
  let all : IndexSet := given.foldl (fun s g => s.union g.2) ∅
  count * (all.size + 1)

end Flood

/-- What reaches each node, where `edges` lists for each node the ones it passes on to and `given`
the sets that are given to nodes at the beginning. -/
def flood (edges : Array (List Nat)) (given : List (Nat × IndexSet)) : Array IndexSet :=
  let start := given.foldl (fun f g => f.deliver g.1 g.2) (Flood.initial edges.size)
  (Flood.run edges (Flood.bound edges.size given) start).reached

end ParserGen
