import ParserGen.Automaton.Basic
import ParserGen.Table.Basic
import ParserGen.Table.Conflict

/-!
# From the automaton to the table

Each state gives one row. The shifts come first, in the order of the transitions, then the accepting
action, then the reductions in the order of the items and of their lookaheads. A reduction that meets
an occupied place is a conflict, which the policy of the grammar settles or not.
-/

namespace ParserGen

variable {V : Type} (g : Grammar V)

/-- A row under construction. -/
structure RowDraft where
  /-- The actions by terminal. -/
  row : OrderedMap Nat Action
  /-- The terminals on which an operator that does not associate left no action. -/
  barred : TerminalSet
  /-- The settled conflicts in order. -/
  resolved : Array ResolvedConflict

/-- How the policy decides between a shift on a terminal and a reduction by a rule. Accepting counts
as a shift. -/
def Grammar.decideShiftReduce? (lookahead rule : Nat) : Option Resolution :=
  let priority :=
    if g.resolution.operators then do
      let op ← g.operator? (g.terminalName lookahead)
      let r ← g.rules[rule]?
      let own ← g.effectivePrecedence r
      return (own, op)
    else none
  match priority with
  | some (own, op) =>
    if own > op.priority then some (.precedence .reduce)
    else if own < op.priority then some (.precedence .shift)
    else
      match op.assoc with
      | .left => some (.precedence .reduce)
      | .right => some (.precedence .shift)
      | .nonassoc => some (.precedence .error)
  | none => if g.resolution.shift then some .shift else none

/-- Which of two rules the policy keeps, and why. The first is the one already in the table. -/
def Grammar.decideReduceReduce? (existing rule : Nat) : Option (Nat × Resolution) :=
  let length := g.ruleLength existing
  let length' := g.ruleLength rule
  if g.resolution.longer ∧ length ≠ length' then
    some (if length > length' then existing else rule, .longerRule)
  else if g.resolution.earlier then
    some (if existing < rule then existing else rule, .earlierRule)
  else none

namespace RowDraft

/-- Notes how a conflict was settled. -/
def record (d : RowDraft) (state lookahead : Nat) (kind : ConflictKind) (resolution : Resolution) :
    RowDraft :=
  { d with resolved := d.resolved.push { state, lookahead, kind, resolution } }

/-- Adds a reduction by a rule on a terminal. -/
def addReduce (state rule : Nat) (d : RowDraft) (t : Nat) : Except UnresolvedConflict RowDraft :=
  if d.barred.contains t then .ok d
  else
    match d.row.find? t with
    | none => .ok { d with row := d.row.insert t (.reduce rule) }
    | some (.reduce existing) =>
      match g.decideReduceReduce? existing rule with
      | none => .error (.reduceReduce state t existing rule)
      | some (kept, resolution) =>
        let discarded := if kept = existing then rule else existing
        .ok ({ d with row := d.row.insert t (.reduce kept) }.record state t
          (.reduceReduce kept discarded) resolution)
    | some _ =>
      match g.decideShiftReduce? t rule with
      | none => .error (.shiftReduce state t rule)
      | some resolution =>
        let settled : RowDraft :=
          match resolution with
          | .precedence .reduce => { d with row := d.row.insert t (.reduce rule) }
          | .precedence .error => { d with row := d.row.erase t, barred := d.barred.insert t }
          | _ => d
        .ok (settled.record state t (.shiftReduce rule) resolution)

/-- Adds the reductions of an item, if its dot is at the end. The start rule is never reduced. -/
def addItem (state : Nat) (d : RowDraft) (e : Item × TerminalSet) :
    Except UnresolvedConflict RowDraft :=
  if e.1.rule = 0 ∨ g.isComplete e.1 = false then .ok d
  else e.2.toList.foldlM (addReduce g state e.1.rule) d

/-- The shifts of a state, and the accepting action if the start rule is complete. -/
def shifts (s : State) : OrderedMap Nat Action :=
  let shifts : List (Nat × Action) := s.edges.filterMap fun
    | (.terminal t, target) => some (t, .shift target)
    | (.nonterminal _, _) => none
  let row := OrderedMap.ofList shifts
  match s.lookahead? ⟨0, 1⟩ with
  | some lookahead =>
    if lookahead.contains Terminal.eof then row.insert Terminal.eof .accept else row
  | none => row

/-- The row of a state with its settled conflicts. -/
def ofState (number : Nat) (s : State) : Except UnresolvedConflict RowDraft :=
  s.items.foldlM (addItem g number) { row := shifts s, barred := ∅, resolved := #[] }

end RowDraft

namespace ParseTable

/-- A row with terminals by name and encoded actions. -/
def actionRow (row : OrderedMap Nat Action) : OrderedMap String Int :=
  .ofList (row.entries.map fun e => (g.terminalName e.1, e.2.encode))

/-- The states that follow reductions in a state. -/
def gotoRow (s : State) : OrderedMap String Nat :=
  .ofList (s.edges.filterMap fun
    | (.terminal _, _) => none
    | (.nonterminal n, target) => some (g.nonterminalName n, target))

/-- The table with the rows of a state added. A state without gotos has no goto row. -/
def addState (t : ParseTable) (number : Nat) (row : OrderedMap Nat Action) (s : State) :
    ParseTable :=
  let gotos := gotoRow g s
  { action := t.action.insert number (actionRow g row)
    goto := if gotos.size = 0 then t.goto else t.goto.insert number gotos }

end ParseTable

/-- A table with the conflicts that were settled on the way. -/
structure Synthesis where
  table : ParseTable
  resolved : Array ResolvedConflict

/-- Adds a state to a table. -/
def Synthesis.add (r : Synthesis) (e : State × Nat) : Except UnresolvedConflict Synthesis := do
  let draft ← RowDraft.ofState g e.2 e.1
  return { table := r.table.addState g e.2 draft.row e.1
           resolved := r.resolved ++ draft.resolved }

/-- The table of an automaton, or the first conflict that the policy leaves open. -/
def Grammar.synthesize (a : Automaton) : Except UnresolvedConflict Synthesis :=
  a.states.toList.zipIdx.foldlM (Synthesis.add g) { table := ⟨∅, ∅⟩, resolved := #[] }

/-- The automaton of a grammar with the outcome of making a table from it. -/
structure Analysis where
  automaton : Automaton
  outcome : Except UnresolvedConflict Synthesis

/-- Builds the automaton of a grammar and its parse table. -/
def Grammar.analyze : Analysis :=
  let automaton := g.automaton
  { automaton, outcome := g.synthesize automaton }

end ParserGen
