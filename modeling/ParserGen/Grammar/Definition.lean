import ParserGen.Grammar.Basic
import ParserGen.Token

/-!
# Defining a grammar

A grammar is put together by calls: rules, callbacks, precedences, operators, a start symbol and a
policy. Some calls speak of what came just before them: a precedence belongs to the rule or to the
group of operators named last. `Definition.finish` numbers the symbols and gives the grammar.

Calls run in the monad `Builder`, which keeps the definition also when a call fails, so that a
caller may go on after a failure.
-/

namespace ParserGen

/-- What there can be too many of. -/
inductive Limit where
  | rules
  | terminals
  | nonterminals
deriving DecidableEq, Inhabited

/-- The word for what there is too much of. -/
def Limit.display : Limit → String
  | .rules => "rules"
  | .terminals => "terminals"
  | .nonterminals => "nonterminals"

/-- Why a grammar cannot be defined. -/
inductive DefinitionError where
  /-- No start symbol was named. -/
  | missingStart
  /-- The start symbol has no rules. -/
  | unknownStart (name : String)
  /-- The name belongs to one of the added symbols. -/
  | reservedName (name : String)
  | emptyName
  /-- A callback was given, but no rule precedes it. -/
  | callWithoutRule
  /-- An associativity was given, but no operators precede it. -/
  | assocWithoutOperators (assoc : Associativity)
  /-- A precedence was given, but neither a rule nor operators precede it. -/
  | precedenceWithoutTarget
  /-- Rules and symbols are numbered below `2 ^ 16`. -/
  | overflow (limit : Limit)
deriving DecidableEq, Inhabited

/-- The wording of the error. -/
def DefinitionError.message : DefinitionError → String
  | .missingStart => "No start rule specified."
  | .unknownStart name => "The start symbol `" ++ name ++ "' has no rules."
  | .reservedName name => "`" ++ name ++ "' is a reserved symbol name."
  | .emptyName => "symbol names must not be empty"
  | .callWithoutRule => "`call' must follow a rule definition"
  | .assocWithoutOperators assoc =>
    "`" ++ assoc.display ++ "' must follow an operator declaration"
  | .precedenceWithoutTarget =>
    "`prec' must follow a rule definition or an operator declaration"
  | .overflow limit => "too many " ++ limit.display ++ " in the grammar"

/-- The largest number of a rule, and the largest count of terminals or nonterminals. -/
def maxCount : Nat := 65535

/-- A rule as it is given, before the symbols are numbered. -/
structure RuleDraft (V : Type) where
  name : String
  components : List String
  precedence : Option Nat
  callback : Option (List V → V)

/-- What a following precedence, associativity or callback belongs to. -/
inductive Cursor where
  | none
  /-- The rule given last. -/
  | rule
  /-- A group of operators. -/
  | operators (group : List String)
deriving DecidableEq

/-- A grammar under construction. -/
structure Definition (V : Type) where
  rules : Array (RuleDraft V)
  start : Option String
  operators : OperatorTable
  resolution : Policy
  cursor : Cursor

/-- Calls that define a grammar. A failing call throws and leaves a definition behind. -/
abbrev Builder (V : Type) := ExceptT DefinitionError (StateM (Definition V))

namespace Definition

variable {V : Type}

/-- The definition before the first call. -/
def empty : Definition V :=
  { rules := #[], start := none, operators := ∅, resolution := .standard, cursor := .none }

instance : Inhabited (Definition V) := ⟨empty⟩

/-- The names that no definition may use. -/
def reservedNames : List String :=
  [Nonterminal.startName, Terminal.epsilonName, Token.eofKind]

/-- What is wrong with a name, if anything. -/
def nameError? (name : String) : Option DefinitionError :=
  if name = "" then some .emptyName
  else if reservedNames.contains name then some (.reservedName name)
  else none

/-- Refuses a name that is empty or reserved. -/
def checkName (name : String) : Except DefinitionError Unit :=
  match nameError? name with
  | some e => .error e
  | none => .ok ()

/-- The definition with the last rule changed. -/
def modifyLastRule (d : Definition V) (f : RuleDraft V → RuleDraft V) : Definition V :=
  { d with rules := d.rules.modify (d.rules.size - 1) f }

/-- The definition with the declarations of some operators changed. -/
def modifyOperators (d : Definition V) (group : List String) (f : Precedence → Precedence) :
    Definition V :=
  { d with operators := group.foldl (fun ops name => ops.modify name f) d.operators }

end Definition

namespace Builder

variable {V : Type}

/-- Adds a rule and returns its number; the first rule is number one. -/
def rule (name : String) (components : List String) : Builder V Nat := fun d =>
  match (name :: components).findSome? Definition.nameError? with
  | some e => (.error e, d)
  | none =>
    let number := d.rules.size + 1
    if number > maxCount then (.error (.overflow .rules), d)
    else
      let draft : RuleDraft V := { name, components, precedence := none, callback := none }
      (.ok number, { d with rules := d.rules.push draft, cursor := .rule })

/-- Gives the last rule its callback. -/
def call (callback : List V → V) : Builder V Unit := fun d =>
  match d.cursor with
  | .rule => (.ok (), d.modifyLastRule fun r => { r with callback := some callback })
  | _ => (.error .callWithoutRule, d)

/-- Sets the priority of the last rule or of the last group of operators. -/
def prec (priority : Nat) : Builder V Unit := fun d =>
  match d.cursor with
  | .rule => (.ok (), d.modifyLastRule fun r => { r with precedence := some priority })
  | .operators group => (.ok (), d.modifyOperators group fun p => { p with priority })
  | .none => (.error .precedenceWithoutTarget, d)

/-- Declares a group of operators, left-associative with priority one. The names before the first
unfit one are declared also when the call fails; only a group without an unfit name is the target of
a following precedence or associativity. -/
def operators (group : List String) : Builder V Unit := fun d =>
  let fit := group.takeWhile fun name => (Definition.nameError? name).isNone
  let declared := fit.foldl (fun ops name => ops.insert name ⟨1, .left⟩) d.operators
  match group.findSome? Definition.nameError? with
  | some e => (.error e, { d with operators := declared })
  | none => (.ok (), { d with operators := declared, cursor := .operators group })

/-- Sets the associativity of the last group of operators. -/
def assoc (assoc : Associativity) : Builder V Unit := fun d =>
  match d.cursor with
  | .operators group => (.ok (), d.modifyOperators group fun p => { p with assoc })
  | _ => (.error (.assocWithoutOperators assoc), d)

/-- Names the start symbol. -/
def start (name : String) : Builder V Unit := fun d =>
  (.ok (), { d with start := some name })

/-- Sets the conflict resolution policy. -/
def resolve (policy : Policy) : Builder V Unit := fun d =>
  (.ok (), { d with resolution := policy })

end Builder

namespace Definition

variable {V : Type}

/-- The nonterminals: `$start`, then the left sides in order of first use. -/
def nonterminals (d : Definition V) : NameTable :=
  (NameTable.empty.insert Nonterminal.startName).insertAll (d.rules.toList.map (·.name))

/-- The terminals: the reserved ones, then the components that are no left side, in order of first
use. -/
def terminals (d : Definition V) (nonterminals : NameTable) : NameTable :=
  let reserved := (NameTable.empty.insert Token.eofKind).insert Terminal.epsilonName
  d.rules.toList.foldl
    (fun t r => t.insertAll (r.components.filter fun c => !nonterminals.contains c)) reserved

/-- The symbol with a name. -/
def intern (nonterminals terminals : NameTable) (name : String) : Symbol :=
  match nonterminals.idOf? name with
  | some n => .nonterminal n
  | none => .terminal ((terminals.idOf? name).getD Terminal.eof)

/-- The rule of a draft. -/
def numberRule (nonterminals terminals : NameTable) (number : Nat) (draft : RuleDraft V) :
    Rule V where
  number := number
  name := draft.name
  left := (nonterminals.idOf? draft.name).getD Nonterminal.start
  components := draft.components
  symbols := draft.components.map (intern nonterminals terminals)
  precedence := draft.precedence
  callback := draft.callback

/-- The rules of each of `count` nonterminals, by number. -/
def groupRules (count : Nat) (rules : List (Rule V)) : Array (List Nat) :=
  rules.foldr (fun r groups => groups.modify r.left (r.number :: ·)) (Array.replicate count [])

/-- Numbers the symbols and gives the grammar. -/
def finish (d : Definition V) : Except DefinitionError (Grammar V) := do
  match d.start with
  | none => .error .missingStart
  | some start =>
    checkName start
    let nonterminals := d.nonterminals
    match nonterminals.idOf? start with
    | none => .error (.unknownStart start)
    | some startId =>
      let terminals := d.terminals nonterminals
      if terminals.size > maxCount then .error (.overflow .terminals)
      else if nonterminals.size > maxCount then .error (.overflow .nonterminals)
      else
        let startRule : Rule V :=
          { number := 0, name := Nonterminal.startName, left := Nonterminal.start,
            components := [start], symbols := [.nonterminal startId],
            precedence := none, callback := none }
        let rules := startRule :: d.rules.toList.mapIdx fun i draft =>
          numberRule nonterminals terminals (i + 1) draft
        .ok { rules := rules.toArray
              terminals
              nonterminals
              groups := groupRules nonterminals.size rules
              operators := d.operators
              start := startId
              resolution := d.resolution }

end Definition

/-- The grammar that a sequence of calls defines. The first failing call is the error. -/
def Grammar.define {V : Type} (calls : Builder V Unit) : Except DefinitionError (Grammar V) :=
  match calls.run.run Definition.empty with
  | (.error e, _) => .error e
  | (.ok (), d) => d.finish

end ParserGen
