import ParserGen.Grammar.Basic
import ParserGen.Table.Basic

/-!
# The annotated listing of a table

Every entry of the table with a comment that explains it, the states in ascending order.
-/

namespace ParserGen

namespace ParseTable

variable {V : Type} (g : Grammar V)

/-- What an action does, in words. -/
def explain (terminal : String) (raw : Int) : String :=
  let action :=
    match Action.decode raw with
    | .shift next => "shift and go to state " ++ toString next
    | .reduce rule =>
      match g.rules[rule]? with
      | some r => "reduce by rule " ++ r.display
      | none => "reduce by unknown rule " ++ toString rule
    | .accept => "accept the input"
  "    // on " ++ terminal ++ " " ++ action ++ "\n"

/-- The rows of one half of the table, the states in ascending order. -/
def listRows {ν : Type} (m : OrderedMap Nat (OrderedMap String ν)) (entry : String × ν → String) :
    String :=
  let rows := sortBy (fun a b => decide (a.1 < b.1)) m.entries
  String.join (rows.map fun (state, row) =>
    "  " ++ toString state ++ ":\n" ++ String.join (row.entries.map entry) ++ "\n")

/-- The whole table as text. -/
def listing (t : ParseTable) : String :=
  let action (e : String × Int) :=
    explain g e.1 e.2 ++ "    " ++ e.1 ++ " => " ++ toString e.2 ++ "\n"
  let goto (e : String × Nat) :=
    "    // on " ++ e.1 ++ " go to state " ++ toString e.2 ++ "\n" ++
      "    " ++ e.1 ++ " => " ++ toString e.2 ++ "\n"
  "action:\n" ++ listRows t.action action ++ "goto:\n" ++ listRows t.goto goto

end ParseTable

end ParserGen
