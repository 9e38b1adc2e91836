import ParserGen.Grammar.Basic

/-!
# Items

An item is a rule with a dot between two of its components: what stands before the dot has been
seen, what stands after it is still expected.
-/

namespace ParserGen

/-- A rule with a dot before the component at position `dot`. -/
structure Item where
  rule : Nat
  dot : Nat
deriving DecidableEq, Inhabited

/-- The item with the dot moved over one component. -/
def Item.advance (i : Item) : Item :=
  { i with dot := i.dot + 1 }

/-- The item from which every parse begins. -/
def Item.start : Item :=
  ⟨0, 0⟩

namespace Grammar

variable {V : Type} (g : Grammar V)

/-- The symbol after the dot. -/
def symbolAfterDot (i : Item) : Option Symbol :=
  (g.symbolsOf i.rule)[i.dot]?

/-- Whether the dot stands at the end. -/
def isComplete (i : Item) : Bool :=
  i.dot == g.ruleLength i.rule

/-- The symbols behind the one after the dot. -/
def symbolsBehind (i : Item) : List Symbol :=
  (g.symbolsOf i.rule).drop (i.dot + 1)

/-- The rules that the item opens: those of the nonterminal after its dot. -/
def openedRules (i : Item) : List Nat :=
  match g.symbolAfterDot i with
  | some (.nonterminal n) => g.alternatives n
  | _ => []

/-- The number of items of the grammar. -/
def itemCount : Nat :=
  g.rules.toList.foldl (fun n r => n + (r.symbols.length + 1)) 0

end Grammar

end ParserGen
