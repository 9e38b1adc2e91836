import ParserGen.Grammar.Basic

/-!
# Conflicts

Two actions may compete for one place of the table. A conflict that the policy settles is recorded;
one that it does not settle ends the construction.
-/

namespace ParserGen

/-- What decided between a shift and a reduction. -/
inductive Decision where
  | shift
  | reduce
  /-- The operator does not associate, so neither is done. -/
  | error
deriving DecidableEq, Inhabited

/-- How a conflict was settled. -/
inductive Resolution where
  /-- The policy prefers the shift. -/
  | shift
  /-- The priorities of the rule and of the operator were compared. -/
  | precedence (decision : Decision)
  | longerRule
  | earlierRule
deriving DecidableEq, Inhabited

/-- Who competed. -/
inductive ConflictKind where
  /-- A reduction by `rule` with a shift. -/
  | shiftReduce (rule : Nat)
  /-- Two reductions, of which one was kept. -/
  | reduceReduce (kept discarded : Nat)
deriving DecidableEq, Inhabited

/-- A conflict that was settled. -/
structure ResolvedConflict where
  state : Nat
  /-- The terminal on which the actions compete. -/
  lookahead : Nat
  kind : ConflictKind
  resolution : Resolution
deriving DecidableEq, Inhabited

/-- A conflict that the policy leaves open. -/
inductive UnresolvedConflict where
  | shiftReduce (state lookahead rule : Nat)
  | reduceReduce (state lookahead first second : Nat)
deriving DecidableEq, Inhabited

namespace Resolution

/-- The resolution in a report. -/
def display : Resolution → String
  | .shift => "shift"
  | .precedence .shift => "shift (precedence)"
  | .precedence .reduce => "reduce (precedence)"
  | .precedence .error => "error (non-associative)"
  | .longerRule => "longer rule"
  | .earlierRule => "earlier rule"

end Resolution

variable {V : Type} (g : Grammar V)

/-- A rule with its number. -/
def Grammar.displayNumbered (rule : Nat) : String :=
  toString rule ++ ". " ++ g.displayRule rule

namespace ResolvedConflict

/-- The report of a settled conflict. -/
def display (c : ResolvedConflict) : String :=
  let place := " on `" ++ g.terminalName c.lookahead ++ "' in state " ++ toString c.state
  match c.kind with
  | .shiftReduce rule =>
    "shift/reduce conflict" ++ place ++ " with rule " ++ g.displayNumbered rule ++
      ": resolved as " ++ c.resolution.display
  | .reduceReduce kept discarded =>
    "reduce/reduce conflict" ++ place ++ " between rules " ++ toString (min kept discarded) ++
      " and " ++ toString (max kept discarded) ++ ": kept " ++ g.displayNumbered kept ++
      " (" ++ c.resolution.display ++ ")"

end ResolvedConflict

namespace UnresolvedConflict

/-- The state of the conflict. -/
def state : UnresolvedConflict → Nat
  | .shiftReduce state _ _ => state
  | .reduceReduce state _ _ _ => state

/-- The terminal on which the actions compete. -/
def lookahead : UnresolvedConflict → Nat
  | .shiftReduce _ lookahead _ => lookahead
  | .reduceReduce _ lookahead _ _ => lookahead

/-- The rules of the competing reductions. -/
def rules : UnresolvedConflict → List Nat
  | .shiftReduce _ _ rule => [rule]
  | .reduceReduce _ _ first second => [first, second]

/-- The wording of the error. -/
def message (c : UnresolvedConflict) : String :=
  let place := "\n\n(on lookahead \"" ++ g.terminalName c.lookahead ++ "\" in state " ++
    toString c.state ++ "). Restructure your grammar or choose a conflict resolution mode."
  match c with
  | .shiftReduce _ _ rule =>
    "The grammar exhibits a shift/reduce conflict on rule:\n\n  " ++ g.displayNumbered rule ++ place
  | .reduceReduce _ _ first second =>
    "The grammar exhibits a reduce/reduce conflict on rules:\n\n  " ++ g.displayNumbered first ++
      "\n\nvs:\n\n  " ++ g.displayNumbered second ++ place

end UnresolvedConflict

end ParserGen
